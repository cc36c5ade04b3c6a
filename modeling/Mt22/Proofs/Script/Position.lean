import Mt22.Proofs.Parsing.Cut
import Mt22.Proofs.Script.Body

/-!
# Targets and calls as values

The text of a target or of a call means the same where a statement stands and where a value does
(`Script.target_or_call_as_value`), unless the text of the target ends within a line comment.

The argument is about texts and not about trees: the `=` of the statement is found again among the
leaves of the script, because the text before it leaves nothing open, and the leaves before it are
those of the target.  They keep their tokens after `x =`, where another text follows them.
-/

namespace Mt22

open Mt22.Tree Mt22.Token Mt22.Trivia Mt22.Peg

/-- Two lists agree up to the first place of an element, and after it. -/
theorem append_cons_inj_of_notMem_left {α : Type} {a : α} {xs ys us vs : List α} (hx : a ∉ xs)
    (hu : a ∉ us) (h : xs ++ a :: ys = us ++ a :: vs) : xs = us ∧ ys = vs := by
  induction xs generalizing us with
  | nil =>
    cases us with
    | nil => exact ⟨rfl, (List.cons.inj h).2⟩
    | cons u us => exact absurd (List.cons.inj h).1 (List.ne_of_not_mem_cons hu)
  | cons x xs ih =>
    cases us with
    | nil => exact absurd (List.cons.inj h).1.symm (List.ne_of_not_mem_cons hx)
    | cons u us =>
      obtain ⟨rfl, htail⟩ := List.cons.inj h
      obtain ⟨rfl, hys⟩ :=
        ih (List.not_mem_of_not_mem_cons hx) (List.not_mem_of_not_mem_cons hu) htail
      exact ⟨rfl, hys⟩

namespace Script

/-- The script of a function with the texts of its header and of its body. -/
def ofBody (name header body : String) : Script :=
  ofSource name (header ++ "\x7b" ++ body ++ "\x7d")

theorem source_ofBody (name header body : String) :
    (ofBody name header body).source = header.toList ++ '\x7b' :: (body.toList ++ ['\x7d']) := by
  simp [ofBody, ofSource, source]

/-- The leaves of an accepted script. -/
theorem written_of_parse {s : Script} {t : Tree} (h : s.parse = .ok t) : Written t.leaves [] := by
  have ht := is_of_parse h
  refine ⟨(placed_of_parse h).2, ?_, ?_, ?_⟩
  · rw [tokensAll_leaves]
    exact ht.conforms.lexemes (by rw [ht.rule]; decide)
  · rw [tokensAll_leaves]
    exact ht.unslashed (by decide)
  · rw [tokensAll_leaves]
    exact Is.forall_tokens Rule.speaks_plain ht rfl

end Script

/-- The statement of a program of one function with one statement. -/
def Program.only? (p : Program) : Option Stmt :=
  match p.decls with
  | [.func f] =>
    match f.body with
    | [s] => some s
    | _ => none
  | _ => none

theorem Program.eq_of_only? {p : Program} {s : Stmt} (h : p.only? = some s) :
    ∃ f : FuncDecl, p = ⟨[.func { f with body := [s] }]⟩ := by
  obtain ⟨decls⟩ := p
  rw [only?] at h
  split at h
  · next f hdecls =>
    split at h
    · next x hbody =>
      obtain rfl := Option.some.inj h
      exact ⟨f, by rw [← hbody]; exact congrArg Program.mk hdecls⟩
    · cases h
  · cases h

namespace Script

variable {name header body : String} {f : FuncDecl}

/-- **The body of a function can be exchanged for another text**, given a header that opens no brace
and leaves no comment open. -/
theorem exists_body (hbrace : '\x7b' ∉ header.toList)
    (hcode : Zone.after .code header.toList = .code)
    (h : (ofBody name header body).program = .ok ⟨[.func f]⟩) :
    ∃ xs, Written xs [] ∧ textAll xs = body.toList ++ ['\x7d'] ∧
      Drawn .block Stmt.ofBlock f.body (['\x7b'] :: tokensAll xs) ∧
      ∀ {body' : String} {ss : List Stmt} {ws : List (List Char)},
        Drawn .block Stmt.ofBlock ss (['\x7b'] :: ws) → Lays ws (body'.toList ++ ['\x7d']) [] →
          (ofBody name header body').program = .ok ⟨[.func { f with body := ss }]⟩ := by
  obtain ⟨t, us, ws, ht, htokens, hus, hdrawn, hnew⟩ := exists_header h
  obtain ⟨vs, rfl⟩ := Stmt.brace_of_block hdrawn
  have hwritten := written_of_parse ht
  have htext : textAll t.leaves = header.toList ++ '\x7b' :: (body.toList ++ ['\x7d']) := by
    rw [textAll_leaves, (placed_of_parse ht).1, source_ofBody]
  rw [← tokensAll_leaves] at htokens
  rcases hwritten.cut htext rfl rfl with hzone | ⟨hzone, -⟩ | ⟨hzone, -⟩ |
    ⟨ls, w, rs, p, q, hleaves, hw, hplain, hheader, hbody⟩
  · exact absurd (hcode.symm.trans hzone) (by decide)
  · exact absurd (hcode.symm.trans hzone) (by decide)
  · exact absurd (hcode.symm.trans hzone) (by decide)
  obtain ⟨rfl, rfl⟩ := eq_brace_of_isPlain hplain hw
  rw [List.append_nil] at hheader
  rw [hleaves] at hwritten htokens
  have hls : Written ls ('\x7b' :: (textAll rs ++ [])) := by
    rw [hw] at hwritten
    exact hwritten.left
  have hfirst : ['\x7b'] ∉ tokensAll ls := fun hmem =>
    hbrace (hheader ▸ hls.mem_textAll hmem (List.mem_singleton_self _))
  have hsplit : tokensAll ls ++ ['\x7b'] :: tokensAll rs = us ++ ['\x7b'] :: vs := by
    rw [← htokens, hw]
    simp
  obtain ⟨rfl, rfl⟩ := append_cons_inj_of_notMem_left hfirst hus hsplit
  refine ⟨rs, hwritten.right.tail, hbody.symm, hdrawn, fun {body' ss ws} hss hlays => ?_⟩
  refine hnew hss ?_
  rw [source_ofBody, hheader]
  refine lays_append.mpr ⟨_, hls.lays_exchange (by simp) (.inl rfl) _, ?_⟩
  exact lays_cons (w := ['\x7b']) rfl (by decide) (by rintro ⟨⟩) hlays

/-- After the name and the sign comes the value. -/
theorem lays_value {before t after : String} {ws : List (List Char)}
    (hbefore : before.toList.all isSpace = true)
    (h : Lays (ws ++ [[';'], ['\x7d']]) (t.toList ++ ';' :: (after.toList ++ ['\x7d'])) []) :
    Lays (['x'] :: ['='] :: (ws ++ [[';'], ['\x7d']]))
      ((before ++ "x = " ++ t ++ ";" ++ after).toList ++ ['\x7d']) [] := by
  have hsource : (before ++ "x = " ++ t ++ ";" ++ after).toList ++ ['\x7d'] = before.toList ++
      'x' :: ' ' :: '=' :: ' ' :: (t.toList ++ ';' :: (after.toList ++ ['\x7d'])) := by
    simp
  rw [hsource]
  have hvalue := lays_congr (after_cons_of_isSpace (c := ' ') rfl _).symm rfl h
  have hsign := lays_cons (w := ['=']) rfl (by decide) (by rintro ⟨⟩) hvalue
  have hname := lays_cons (w := ['x']) rfl (by decide) (fun _ => stops_cons (c := ' ') rfl)
    (lays_congr (after_cons_of_isSpace (c := ' ') rfl _).symm rfl hsign)
  exact lays_congr (after_blank (blank_of_all_isSpace hbefore) _).symm rfl hname

/-- The zone of a text is that of the text with a space after it, and with space before it. -/
theorem zone_spaced {before t : String} (hbefore : before.toList.all isSpace = true) :
    Zone.after .code (before.toList ++ t.toList ++ [' ']) = Zone.after .code t.toList := by
  rw [List.append_assoc, Zone.after_blank (blank_of_all_isSpace hbefore),
    Zone.after_append_cons rfl]
  cases Zone.after .code t.toList <;> rfl

/-- **The leaves of a target** are those before the sign of its assignment. -/
theorem exists_target {before t after : String} {xs : List Tree} {us vs : List (List Char)}
    (hbefore : before.toList.all isSpace = true) (hafter : after.toList.all isSpace = true)
    (hline : Zone.after .code t.toList ≠ .line) (h : Written xs [])
    (htext : textAll xs = (before ++ t ++ " = 0;" ++ after).toList ++ ['\x7d'])
    (htokens : tokensAll xs = us ++ ['='] :: vs) (hus : ['='] ∉ us) (hvs : ['='] ∉ vs) :
    ∃ ls rest, Written ls rest ∧ rest ≠ [] ∧ textAll ls = before.toList ++ t.toList ++ [' '] ∧
      tokensAll ls = us := by
  have hsource : textAll xs = before.toList ++ t.toList ++ [' '] ++
      '=' :: ' ' :: '0' :: ';' :: (after.toList ++ ['\x7d']) := by
    rw [htext]
    simp
  have hnone : ∀ c, isSpace c = false → c ∉ ['0', ';', '\x7d'] →
      c ∉ ' ' :: '0' :: ';' :: (after.toList ++ ['\x7d']) := by
    intro c hspace hc hmem
    have hmem : c ∈ ' ' :: after.toList ++ ['0', ';', '\x7d'] := by
      simp only [List.mem_cons, List.mem_append, List.cons_append] at hmem ⊢
      tauto
    rcases List.mem_append.mp hmem with hmem | hmem
    · have hall : ∀ d ∈ ' ' :: after.toList, isSpace d = true :=
        List.forall_mem_cons.mpr ⟨rfl, List.all_eq_true.mp hafter⟩
      rw [hall c hmem] at hspace
      cases hspace
    · exact hc hmem
  rcases h.cut hsource rfl rfl with hzone | ⟨-, hstar⟩ | ⟨-, hquote⟩ |
    ⟨ls, w, rs, p, q, rfl, hw, hplain, hp, hq⟩
  · exact absurd ((zone_spaced hbefore).symm.trans hzone) hline
  · exact absurd hstar (hnone '*' rfl (by decide))
  · exact absurd hquote (hnone '"' rfl (by decide))
  -- there is a space on both sides of the sign, and none in a token
  have hinner := inner_of_mem hplain (c := '=') (by simp [hw]) (by decide) (by decide)
  have hpnil : p = [] := by
    rcases List.eq_nil_or_concat p with hnil | ⟨p', d, hd⟩
    · exact hnil
    · have hsplit : before.toList ++ t.toList ++ [' '] = textAll ls ++ p' ++ [d] := by
        rw [hp, hd]
        simp
      have hlast : ' ' = d := (List.cons.inj (List.append_inj' hsplit rfl).2).1
      have hspace := (hinner d (by simp [hw, hd])).1
      rw [← hlast] at hspace
      cases hspace
  have hqnil : q = [] := by
    cases q with
    | nil => rfl
    | cons d q =>
      have hspace := (hinner d (by simp [hw])).1
      rw [← (List.cons.inj hq).1] at hspace
      cases hspace
  subst hpnil hqnil
  rw [hw] at h htokens
  have hsplit : us ++ ['='] :: vs = tokensAll ls ++ ['='] :: tokensAll rs := by
    rw [← htokens]
    simp
  have htarget := ((List.append_cons_inj_of_notMem hus hvs).mp hsplit).1
  exact ⟨ls, _, h.left, by simp [Tree.text], by rw [hp, List.append_nil], htarget.symm⟩

/-- The last two tokens of a body of one statement. -/
theorem lays_end {after : String} (hafter : after.toList.all isSpace = true) :
    Lays [[';'], ['\x7d']] (';' :: (after.toList ++ ['\x7d'])) [] := by
  have hclose : Lays [['\x7d']] ['\x7d'] [] := lays_cons rfl (by decide) (by rintro ⟨⟩) rfl
  have hspace := lays_congr (after_blank (blank_of_all_isSpace hafter) _).symm rfl hclose
  exact lays_cons (w := [';']) rfl (by decide) (by rintro ⟨⟩) hspace

/-- **Targets and calls mean the same as statements and as values.**  Where the body `t = 0;` of a
function is a single assignment, `x = t;` is one in its place, of the target read as an expression;
and where the body `t;` is a single call, `x = t;` is a single assignment of that call.  White space
may stand around these bodies.  The text of the target must not end within a line comment, which
would take the semicolon with it. -/
theorem target_or_call_as_value (name header before t after : String) (f : FuncDecl)
    (hbrace : '\x7b' ∉ header.toList) (hcode : Zone.after .code header.toList = .code)
    (hbefore : before.toList.all isSpace = true) (hafter : after.toList.all isSpace = true) :
    (∀ target value, Zone.after .code t.toList ≠ .line →
      (ofBody name header (before ++ t ++ " = 0;" ++ after)).program =
        .ok ⟨[.func { f with body := [.assign ⟨target, value⟩] }]⟩ →
      (ofBody name header (before ++ "x = " ++ t ++ ";" ++ after)).program =
        .ok ⟨[.func { f with body := [.assign ⟨.id "x", target.toExpr⟩] }]⟩) ∧
    ∀ callee args,
      (ofBody name header (before ++ t ++ ";" ++ after)).program =
        .ok ⟨[.func { f with body := [.call callee args] }]⟩ →
      (ofBody name header (before ++ "x = " ++ t ++ ";" ++ after)).program =
        .ok ⟨[.func { f with body := [.assign ⟨.id "x", .call callee args⟩] }]⟩ := by
  have hblank := blank_of_all_isSpace hbefore
  constructor
  · intro target value hline h
    obtain ⟨xs, hwritten, htext, hdrawn, hnew⟩ := exists_body hbrace hcode h
    obtain ⟨us, vs, htokens, hus, hvs, htarget⟩ := Stmt.tokens_of_assign hdrawn
    obtain ⟨ls, rest, hls, hne, hlsText, rfl⟩ :=
      exists_target hbefore hafter hline hwritten htext (List.cons.inj htokens).2 hus
        (by simpa using hvs)
    refine hnew (Stmt.drawn_assign (x := "x") (by decide) (Target.drawnAt htarget)) ?_
    refine lays_value hbefore (lays_append.mpr ⟨_, ?_, lays_end hafter⟩)
    have hlays := hls.lays_trim hne hlsText (c := ';') rfl (after.toList ++ ['\x7d'])
    rw [List.append_assoc] at hlays
    exact lays_congr (after_blank hblank _) rfl hlays
  · intro callee args h
    obtain ⟨xs, hwritten, htext, hdrawn, hnew⟩ := exists_body hbrace hcode h
    obtain ⟨us, htokens, hcall⟩ := Stmt.tokens_of_call hdrawn
    have hvalue := (Expr.DrawnAt.call hcall).loosen (Nat.zero_le 7) (Nat.le_refl 7)
    refine hnew (Stmt.drawn_assign (x := "x") (by decide) hvalue) ?_
    refine lays_value hbefore ?_
    rw [← (List.cons.inj htokens).2]
    have hlays := hwritten.placed.lays
    have hsource : textAll xs ++ [] =
        before.toList ++ (t.toList ++ ';' :: (after.toList ++ ['\x7d'])) := by
      rw [htext]
      simp
    rw [hsource] at hlays
    exact lays_congr (after_blank hblank _) rfl hlays

/-- A script of one function with one statement that passes a test. -/
theorem exists_only {s : Script} {test : Stmt → Bool}
    (h : s.program.toOption.map (fun p => p.only?.any test) = some true) :
    ∃ (f : FuncDecl) (x : Stmt),
      s.program = .ok ⟨[.func { f with body := [x] }]⟩ ∧ test x = true := by
  obtain ⟨p, hp, hany⟩ := exists_program h
  cases hx : p.only? with
  | none => rw [hx] at hany; cases hany
  | some x =>
    obtain ⟨f, rfl⟩ := Program.eq_of_only? hx
    rw [hx] at hany
    exact ⟨f, x, hp, hany⟩

/-- A cell with a call, a string that looks like a comment and a comment that looks like the sign,
and a call with a semicolon and a comment of its own. -/
theorem target_or_call_as_value_nested :
    let header := "f: function auto(out a: array[2] of string) inherit g // = =\n"
    let cell := "a[h(1, \"// \\\" \"), -2]/* = */"
    let call := "g(a[1] :: \"/*\", \x7b\x7d); //"
    (∃ (f : FuncDecl) (target : Target) (value : Expr),
      (ofBody "a" header ("\n" ++ cell ++ " = 0;" ++ "\n")).program =
        .ok ⟨[.func { f with body := [.assign ⟨target, value⟩] }]⟩ ∧
      (ofBody "a" header ("\n" ++ "x = " ++ cell ++ ";" ++ "\n")).program =
        .ok ⟨[.func { f with body := [.assign ⟨.id "x", target.toExpr⟩] }]⟩) ∧
    ∃ (f : FuncDecl) (callee : String) (args : List Expr),
      (ofBody "a" header ("\n" ++ call ++ ";" ++ "\n")).program =
        .ok ⟨[.func { f with body := [.call callee args] }]⟩ ∧
      (ofBody "a" header ("\n" ++ "x = " ++ call ++ ";" ++ "\n")).program =
        .ok ⟨[.func { f with body := [.assign ⟨.id "x", .call callee args⟩] }]⟩ := by
  intro header cell call
  have hcell : (ofBody "a" header ("\n" ++ cell ++ " = 0;" ++ "\n")).program.toOption.map (fun p =>
      p.only?.any fun | .assign _ => true | _ => false) = some true := by decide +kernel
  have hcall : (ofBody "a" header ("\n" ++ call ++ ";" ++ "\n")).program.toOption.map (fun p =>
      p.only?.any fun | .call .. => true | _ => false) = some true := by decide +kernel
  have hbrace : '\x7b' ∉ header.toList := by decide +kernel
  have hcode : Zone.after .code header.toList = .code := by decide +kernel
  have hline : Zone.after .code cell.toList ≠ .line := by decide +kernel
  constructor
  · obtain ⟨f, x, hx, htest⟩ := exists_only hcell
    cases x with
    | assign a =>
      exact ⟨f, a.target, a.value, hx, (target_or_call_as_value "a" header "\n" cell "\n" f hbrace
        hcode (by decide) (by decide)).1 a.target a.value hline hx⟩
    | _ => cases htest
  · obtain ⟨f, x, hx, htest⟩ := exists_only hcall
    cases x with
    | call callee args =>
      exact ⟨f, callee, args, hx, (target_or_call_as_value "a" header "\n" call "\n" f hbrace
        hcode (by decide) (by decide)).2 callee args hx⟩
    | _ => cases htest

/-- A text that ends within a line comment need not be a target: it may hold a whole assignment. -/
theorem target_in_comment_as_value :
    let header := "main: function void() "
    let t := "a = 1; //"
    (∃ (f : FuncDecl) (value : Expr), (ofBody "a" header ("\n" ++ t ++ " = 0;" ++ "\n")).program =
      .ok ⟨[.func { f with body := [.assign ⟨.id "a", value⟩] }]⟩) ∧
    (ofBody "a" header ("\n" ++ "x = " ++ t ++ ";" ++ "\n")).program.isOk = false := by
  intro header t
  refine ⟨?_, by decide +kernel⟩
  have ht : (ofBody "a" header ("\n" ++ t ++ " = 0;" ++ "\n")).program.toOption.map (fun p =>
      p.only?.any fun | .assign ⟨.id n, _⟩ => n == "a" | _ => false) = some true := by
    decide +kernel
  obtain ⟨f, x, hx, htest⟩ := exists_only ht
  split at htest
  · next n value =>
    obtain rfl : n = "a" := by simpa using htest
    exact ⟨f, value, hx⟩
  · cases htest

end Script

end Mt22
