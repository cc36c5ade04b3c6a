import Mt22.Proofs.Number.Layout
import Mt22.Proofs.Program.Tokens
import Mt22.Proofs.Script.Accept

/-!
# What the leaves of a program look like

Names and literals come from tokens of the tree (`Program.from_of_ofTree`), and in the tree of an
accepted script each token is of its class.  So the names of a program are identifiers, without the
trivia around them, its integers have no sign and fit into 63 bits, its floats have no sign, and its
strings are escapes and ordinary characters (`Script.program_lexical`).
-/

namespace Mt22

open Mt22.Tree Mt22.Visit Mt22.Token

/-! ### Conforming trees -/

theorem Tree.Conforms.within {t u : Tree} (h : t.Conforms) (hu : u.Within t) : u.Conforms := by
  induction hu with
  | self => exact h
  | child hc _ ih => exact ih (h.children _ hc)

/-- The string of a token is of its class. -/
theorem Tree.Is.allows {r : Rule} {t : Tree} (h : Is r t) (hk : r.kind = .token) :
    r.Allows t.string.toList := by
  rw [Tree.string, String.toList_ofList]
  exact h.allows_text hk

variable {root : Tree}

theorem Tree.Names.isName {n : String} (h : root.Names n) (hr : root.Conforms) :
    isName n.toList = true := by
  obtain ⟨i, hi, hrule, rfl⟩ := h
  exact Is.allows ⟨hrule, hr.within hi⟩ rfl

namespace Expr

/-- What the leaf of an expression looks like when it was made of a token of its class. -/
def Lexical : Expr → Prop
  | id name | cell name _ | call name _ => isName name.toList = true
  | int value => 0 ≤ value ∧ value ≤ 2 ^ 63 - 1
  | float value => value.IsUnsigned
  | str text => isStringBody text.toList = true
  | bool _ | array _ | binary .. | unary .. => True

theorem From.lexical {e : Expr} (h : e.From root) (hr : root.Conforms) : e.Lexical := by
  cases e with
  | id | cell | call => exact h.isName hr
  | int v =>
    obtain ⟨i, hi, hrule, hv⟩ := h
    rw [Literal.integer_eq ⟨hrule, hr.within hi⟩] at hv
    split at hv
    · next hlt =>
      obtain rfl := Except.ok.inj hv
      rw [Number.signedLimit] at hlt
      exact ⟨by omega, by omega⟩
    · cases hv
  | float x =>
    obtain ⟨i, hi, hrule, hx⟩ := h
    obtain ⟨d, hd⟩ := Literal.float_eq ⟨hrule, hr.within hi⟩
    obtain rfl := Except.ok.inj (hd.symm.trans hx)
    exact d.isUnsigned_toBinary64
  | str s =>
    obtain ⟨i, hi, hrule, rfl⟩ := h
    exact Is.allows ⟨hrule, hr.within hi⟩ rfl
  | bool | array | binary | unary => trivial

end Expr

/-- A group of variables has a name. -/
theorem VarDecl.ofGroup_ne_nil {t : Tree} {vs : List VarDecl} (ht : Is .varDecl t)
    (h : ofGroup t = .ok vs) : vs ≠ [] := by
  obtain ⟨n, ty, i, ns, τ, hc, hn, -, -, hns, -, hcase⟩ := ofGroup_ok h
  have hlist : Is .nameList n := ⟨hn, ht.children_conform (by decide) n (by simp [hc])⟩
  obtain ⟨hne, hall⟩ := hlist.commaList .identifier (by decide) rfl
  have hnames : ns ≠ [] := by
    rw [names_ok hns]
    obtain ⟨d, rest, hd⟩ := List.exists_cons_of_ne_nil hne
    rw [hd, List.takeWhile_cons_of_pos (by simp [(hall d (by simp [hd])).rule])]
    exact List.cons_ne_nil _ _
  rcases hcase with ⟨-, rfl⟩ | ⟨l, es, -, -, hlen, rfl⟩
  · rwa [Ne, List.map_eq_nil_iff]
  · rw [Ne, List.zipWith_eq_nil_iff]
    rintro (h | h)
    · exact hnames h
    · rw [h] at hlen
      exact hnames (List.length_eq_zero_iff.mp hlen.symm)

/-- A declaration declares something. -/
theorem Decl.ofTree_ne_nil {t : Tree} {ds : List Decl} (ht : Is .declaration t)
    (h : Decl.ofTree t = .ok ds) : ds ≠ [] := by
  obtain ⟨c, hc, ⟨f, -, -, rfl⟩ | ⟨vs, hr, hvs, rfl⟩⟩ := ofTree_ok h
  · exact List.cons_ne_nil _ _
  · rw [Ne, List.map_eq_nil_iff]
    exact VarDecl.ofGroup_ne_nil ⟨hr, ht.children_conform (by decide) c (by simp [hc])⟩ hvs

namespace Program

/-- The lexical form of a program: it declares something, all its names are identifiers, its
integers are from `0` to `2 ^ 63 - 1`, and its strings are concatenations of units. -/
structure Lexical (p : Program) : Prop where
  decls_ne_nil : p.decls ≠ []
  names : ∀ n ∈ p.names, isName n.toList = true
  integers : ∀ v, .int v ∈ p.exprs → 0 ≤ v ∧ v ≤ 2 ^ 63 - 1
  strings : ∀ s, .str s ∈ p.exprs →
    ∃ units : List (List Char), s.toList = units.flatten ∧ ∀ u ∈ units, IsUnit u

theorem ofTree_decls_ne_nil {t : Tree} {p : Program} (ht : Is .program t) (h : ofTree t = .ok p) :
    p.decls ≠ [] := by
  obtain ⟨ds, e, hc, hne, hds, -⟩ := ht.program
  obtain ⟨xs, e', dss, hc', -, -, hdss, hp⟩ := ofTree_ok h
  obtain ⟨rfl, -⟩ := List.append_inj' (hc'.symm.trans hc) rfl
  obtain ⟨d, rest, rfl⟩ := List.exists_cons_of_ne_nil hne
  obtain ⟨bs, bss, hbs, -, rfl⟩ := List.forall₂_cons_left_iff.mp (mapM_ok.mp hdss)
  have hne := Decl.ofTree_ne_nil (hds d List.mem_cons_self) hbs
  rw [hp, List.flatten_cons]
  exact List.append_ne_nil_of_left_ne_nil hne _

end Program

namespace Script

variable {s : Script} {p : Program}

/-- The leaves of the program of a script. -/
theorem exprs_lexical (h : s.program = .ok p) : ∀ e ∈ p.exprs, e.Lexical := by
  obtain ⟨t, ht, hp⟩ := program_eq_ok_iff.mp h
  exact fun e he => ((Program.from_of_ofTree hp).exprs e he).lexical (is_of_parse ht).conforms

theorem names_isName (h : s.program = .ok p) : ∀ n ∈ p.names, isName n.toList = true := by
  obtain ⟨t, ht, hp⟩ := program_eq_ok_iff.mp h
  exact fun n hn => ((Program.from_of_ofTree hp).names n hn).isName (is_of_parse ht).conforms

/-- **The program of a script has the lexical form of the grammar.** -/
theorem program_lexical (s : Script) (p : Program) (h : s.program = .ok p) : p.Lexical where
  decls_ne_nil := by
    obtain ⟨t, ht, hp⟩ := program_eq_ok_iff.mp h
    exact Program.ofTree_decls_ne_nil (is_of_parse ht) hp
  names := names_isName h
  integers v hv := exprs_lexical h (.int v) hv
  strings v hv := isStringBody_iff.mp (exprs_lexical h (.str v) hv)

/-- A name that starts like a keyword, between comments, and a string with an escape. -/
theorem program_lexical_comments :
    let s := Script.ofSource "a"
      "/* f */ iff /* g */ : auto = out_(x, 9223372036854775807, \"\\n'\");"
    ∃ p, s.program = .ok p ∧ p.names = ["iff", "out_", "x"] ∧ p.Lexical := by
  intro s
  have hok : s.program.toOption.map Program.names = some ["iff", "out_", "x"] := by decide +kernel
  obtain ⟨p, hp, hnames⟩ := exists_program hok
  exact ⟨p, hp, hnames, program_lexical s p hp⟩

end Script

end Mt22
