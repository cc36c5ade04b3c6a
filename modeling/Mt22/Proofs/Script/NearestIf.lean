import Mt22.Proofs.Program.MadeDecl
import Mt22.Proofs.Program.Print
import Mt22.Proofs.Program.Subterms
import Mt22.Proofs.Script.Join

/-!
# Every `else` belongs to the nearest `if`

In a program that is made of a source text, the first branch of an `if` with an `else` does not end
in an `if` without one (`Script.else_at_nearest_if`): the inner `if` would have taken the `else`.

The tree of a source has its `else`s at the nearest `if` (`Tree.Nearest`), which forbids an `else`
after a tree that is open.  It remains that a statement can end in an `if` without `else` only if the
tree that it was made of is open (`Stmt.Made.isOpen`).
-/

namespace Mt22

open Mt22.Tree

variable {t : Tree}

/-! ### Ends of statements -/

namespace Stmt

/-- Nothing of the first statement stands after the second, and no block or `do` loop closes it. -/
inductive EndsIn : Stmt → Stmt → Prop
  | refl (s : Stmt) : EndsIn s s
  | whileLoop {e : Expr} {body x : Stmt} : EndsIn body x → EndsIn (.whileLoop e body) x
  | forLoop {i : Assign} {e u : Expr} {body x : Stmt} :
      EndsIn body x → EndsIn (.forLoop i e u body) x
  | ifElse {e : Expr} {a b x : Stmt} : EndsIn b x → EndsIn (.ifElse e a b) x
  | ifThen {e : Expr} {a x : Stmt} : EndsIn a x → EndsIn (.ifThen e a) x

theorem EndsIn.endsOpen {s x : Stmt} (h : s.EndsIn x) (hx : x.endsOpen = true) :
    s.endsOpen = true := by
  induction h with
  | refl => exact hx
  | whileLoop _ ih | forLoop _ ih | ifElse _ ih => exact ih hx
  | ifThen => rfl

/-- The first branch of an `if` with an `else` leaves no `if` open. -/
def IsClosed : Stmt → Prop
  | ifElse _ a _ => a.endsOpen = false
  | _ => True

end Stmt

/-! ### Ends of nodes -/

/-- The last item of a sequence. -/
def Peg.last : Peg → Peg
  | seq _ b => b.last
  | e => e

theorem Peg.Fits.last {e : Peg} {ts : List Tree} (h : e.Fits ts) :
    ∃ us vs, ts = us ++ vs ∧ e.last.Fits vs := by
  induction e generalizing ts with
  | seq a b _ ih =>
    obtain ⟨xs, ys, rfl, -, hb⟩ := seq_iff.mp h
    obtain ⟨us, vs, rfl, hv⟩ := ih hb
    exact ⟨xs ++ us, vs, by rw [List.append_assoc], hv⟩
  | _ => exact ⟨[], ts, rfl, h⟩

namespace Tree

theorem isTrivia_of_rule {r : Rule} (h : t.rule? = some r) : t.isTrivia = false := by
  cases t with
  | token | trivia => cases h
  | node => rfl

/-- A node that ends with another is open if that one is, and it is no `if` itself. -/
theorem isOpen_of_solid {u : List Tree} {b : Tree} (hr : t.rule? ≠ some .ifStmt)
    (hp : solid t.parts = u ++ [b]) (hb : b.isTrivia = false) : t.isOpen = b.isOpen := by
  cases t with
  | token | trivia =>
    rw [show solid _ = [] from rfl] at hp
    simp at hp
  | node r i j ps =>
    have hr : r ≠ .ifStmt := fun h => hr (congrArg some h)
    have hps : solid ps = u ++ [b] := hp
    rw [isOpen, decide_eq_false hr, Bool.false_and, Bool.false_or, ← openAll_solid, hps,
      openAll_append_singleton u hb]

/-- A node whose last part is a statement. -/
theorem Is.isOpen_last {r : Rule} {l : List Tree} {b : Tree} (h : Is r t) (hk : r.kind ≠ .token)
    (hr : r ≠ .ifStmt) (hlast : r.body.last = .call .statement) (hc : t.children = l ++ [b]) :
    t.isOpen = b.isOpen := by
  obtain ⟨us, vs, hsolid, hvs⟩ := (h.fits hk).1.last
  rw [hlast] at hvs
  obtain ⟨d, rfl, hd⟩ := Peg.Fits.call_iff.mp hvs
  have hdb : d = b := by
    rw [Tree.children, ← nodes_solid, hsolid, nodes_append, nodes_cons_of_rule hd] at hc
    simpa using congrArg List.getLast? hc
  subst hdb
  exact isOpen_of_solid (by rw [h.rule]; simpa using hr) hsolid (isTrivia_of_rule hd)

theorem Is.isOpen_statement {f : Tree} {r : Rule} (h : Is .statement t) (hc : t.children = [f])
    (hf : f.rule? = some r) : t.isOpen = f.isOpen := by
  obtain ⟨x, hx⟩ := (h.fits (by decide)).1.single (by decide)
  have hxf : x = f := by
    rw [Tree.children, ← nodes_solid, hx] at hc
    cases x with
    | token | trivia => cases hc
    | node => exact List.head_eq_of_cons_eq hc
  subst hxf
  exact isOpen_of_solid (u := []) (by rw [h.rule]; decide) hx (isTrivia_of_rule hf)

/-- An `if` with one branch. -/
theorem Is.isOpen_ifThen {e a : Tree} (h : Is .ifStmt t) (hc : t.children = [e, a]) :
    t.isOpen = true := by
  obtain ⟨e', a', he', ha', hp⟩ := ifStmt_cases (h.fits (by decide)).1
  rcases hp with hp | ⟨b, hb, hp⟩
  · obtain ⟨r, i, j, ps, rfl⟩ : ∃ r i j ps, t = .node r i j ps := by
      cases t with
      | token | trivia => cases h.rule
      | node r i j ps => exact ⟨r, i, j, ps, rfl⟩
    obtain rfl := Option.some.inj h.rule
    have hps : hasElse ps = false := by
      rw [← hasElse_solid, show solid ps = _ from hp,
        hasElse_ifParts (isNode_of_rule he') (isNode_of_rule ha')]
    rw [isOpen, hps]
    rfl
  · -- three children, where there are two
    rw [Tree.children, ← nodes_solid, hp, nodes_append, ifParts] at hc
    simp [nodes_cons_of_rule he', nodes_cons_of_rule ha', elseToken, nodes_cons_of_rule hb] at hc

/-- An `if` with two branches. -/
theorem Is.solid_ifElse {e a b : Tree} (h : Is .ifStmt t) (hc : t.children = [e, a, b]) :
    solid t.parts = ifParts e a ++ [elseToken, b] := by
  obtain ⟨e', a', he', ha', hp⟩ := ifStmt_cases (h.fits (by decide)).1
  rcases hp with hp | ⟨b', hb', hp⟩
  · rw [Tree.children, ← nodes_solid, hp, ifParts] at hc
    simp [nodes_cons_of_rule he', nodes_cons_of_rule ha'] at hc
  · rw [Tree.children, ← nodes_solid, hp, nodes_append, ifParts] at hc
    simp only [nodes_cons_token, nodes_cons_of_rule he', nodes_cons_of_rule ha', elseToken,
      nodes_cons_of_rule hb', nodes_nil, List.cons_append, List.nil_append, List.cons.injEq,
      and_true] at hc
    obtain ⟨rfl, rfl, rfl⟩ := hc
    exact hp

theorem Is.isOpen_ifElse {e a b : Tree} (h : Is .ifStmt t) (hc : t.children = [e, a, b])
    (hb : b.rule? = some .statement) (ho : b.isOpen = true) : t.isOpen = true := by
  have hp : solid t.parts = (ifParts e a ++ [elseToken]) ++ [b] := by
    rw [h.solid_ifElse hc, List.append_assoc]
    rfl
  cases t with
  | token | trivia => cases h.rule
  | node r i j ps =>
    have hopen : openAll ps = true := by
      rw [← openAll_solid, show solid ps = _ from hp,
        openAll_append_singleton _ (isTrivia_of_rule hb), ho]
    rw [isOpen, hopen, Bool.or_true]

/-- No `else` stands after a branch that is open. -/
theorem Nearest.isOpen_branch {e a b : Tree} (hn : t.Nearest) (h : Is .ifStmt t)
    (hc : t.children = [e, a, b]) (ha : a.rule? = some .statement) : a.isOpen = false := by
  have hp := h.solid_ifElse hc
  cases hn with
  | node hstray _ =>
    have hopen := hstray (ifParts e a) [b] hp
    rwa [show ifParts e a = [.token "if".toList, .token "(".toList, e, .token ")".toList] ++ [a]
      from rfl, openAll_append_singleton _ (isTrivia_of_rule ha)] at hopen

end Tree

/-! ### Statements that are made of a tree -/

namespace Stmt

/-- Only an open tree gives a statement that ends with an `if` without `else`. -/
theorem Made.isOpen {ss : List Stmt} (h : Made t ss) (hc : t.Conforms)
    (hb : t.rule? ≠ some .block) : ∀ s ∈ ss, s.endsOpen = true → t.isOpen = true := by
  induction h with
  | @statement t f r s hr hch hf hmem hne hs ih =>
    intro s hs ho
    rw [Is.isOpen_statement ⟨hr, hc⟩ hch hf]
    have hfb : f.rule? ≠ some .block := by
      rw [hf]
      simpa using hne
    exact ih (hc.children f (by simp [hch])) hfb s hs ho
  | block hr => exact absurd hr hb
  | group =>
    refine List.forall_mem_map.mpr ?_
    rintro v - ho
    cases ho
  | ifThen hr hch =>
    intro _ _ _
    exact Is.isOpen_ifThen ⟨hr, hc⟩ hch
  | @ifElse t e a b x y z hr hch he ha hb' hx hy hz ihy ihz =>
    refine List.forall_mem_singleton.mpr fun ho => ?_
    have hbo := ihz (hc.children b (by simp [hch])) (by rw [hb']; decide) z List.mem_cons_self ho
    exact Is.isOpen_ifElse ⟨hr, hc⟩ hch hb' hbo
  | @forLoop t a c u b i x y z hr hch ha hcond hu hb' hi hx hy hz ih =>
    refine List.forall_mem_singleton.mpr fun ho => ?_
    rw [Is.isOpen_last (l := [a, c, u]) ⟨hr, hc⟩ (by decide) (by decide) rfl hch]
    exact ih (hc.children b (by simp [hch])) (by rw [hb']; decide) z List.mem_cons_self ho
  | @whileLoop t c b x z hr hch hcond hb' hx hz ih =>
    refine List.forall_mem_singleton.mpr fun ho => ?_
    rw [Is.isOpen_last (l := [c]) ⟨hr, hc⟩ (by decide) (by decide) rfl hch]
    exact ih (hc.children b (by simp [hch])) (by rw [hb']; decide) z List.mem_cons_self ho
  | _ =>
    refine List.forall_mem_singleton.mpr ?_
    rintro ⟨⟩

theorem Made.closed {ss : List Stmt} (h : Made t ss) (hc : t.Conforms) (hn : t.Nearest) :
    ∀ s ∈ ss, s.Every IsClosed := by
  induction h with
  | @statement t f r s hr hch hf hmem hne hs ih =>
    have hf : f ∈ t.children := by simp [hch]
    exact ih (hc.children f hf) (hn.children f hf)
  | @nested t b ss hr hch hb hss ih =>
    have hb : b ∈ t.children := by simp [hch]
    exact List.forall_mem_singleton.mpr
      (every_block.mpr ⟨trivial, ih (hc.children b hb) (hn.children b hb)⟩)
  | block hr hch hss ih =>
    exact List.forall_mem_flatMap.mpr fun c hmem =>
      ih c hmem (hc.children c hmem) (hn.children c hmem)
  | group => exact List.forall_mem_map.mpr fun v _ => (every_of_substmts rfl).mpr trivial
  | @ifThen t e a x y hr hch he ha hx hy ih =>
    have ha : a ∈ t.children := by simp [hch]
    have hy := List.forall_mem_singleton.mp (ih (hc.children a ha) (hn.children a ha))
    exact List.forall_mem_singleton.mpr (every_ifThen.mpr ⟨trivial, hy⟩)
  | @ifElse t e a b x y z hr hch he ha hb hx hy hz ihy ihz =>
    have hma : a ∈ t.children := by simp [hch]
    have hmb : b ∈ t.children := by simp [hch]
    have hcl : y.endsOpen = false := by
      rw [Bool.eq_false_iff]
      intro ho
      have hopen := hy.isOpen (hc.children a hma) (by rw [ha]; decide) y List.mem_cons_self ho
      rw [hn.isOpen_branch ⟨hr, hc⟩ hch ha] at hopen
      cases hopen
    exact List.forall_mem_singleton.mpr (every_ifElse.mpr ⟨hcl,
      List.forall_mem_singleton.mp (ihy (hc.children a hma) (hn.children a hma)),
      List.forall_mem_singleton.mp (ihz (hc.children b hmb) (hn.children b hmb))⟩)
  | @forLoop t a c u b i x y z hr hch ha hcond hu hb hi hx hy hz ih =>
    have hb : b ∈ t.children := by simp [hch]
    have hz := List.forall_mem_singleton.mp (ih (hc.children b hb) (hn.children b hb))
    exact List.forall_mem_singleton.mpr (every_forLoop.mpr ⟨trivial, hz⟩)
  | @whileLoop t c b x z hr hch hcond hb hx hz ih =>
    have hb : b ∈ t.children := by simp [hch]
    have hz := List.forall_mem_singleton.mp (ih (hc.children b hb) (hn.children b hb))
    exact List.forall_mem_singleton.mpr (every_whileLoop.mpr ⟨trivial, hz⟩)
  | @doLoop t b c ss x hr hch hb hcond hss hx ih =>
    have hb : b ∈ t.children := by simp [hch]
    exact List.forall_mem_singleton.mpr
      (every_doLoop.mpr ⟨trivial, ih (hc.children b hb) (hn.children b hb)⟩)
  | breakLoop | continueLoop | ret | retValue | call | assign =>
    exact List.forall_mem_singleton.mpr ((every_of_substmts rfl).mpr trivial)

end Stmt

theorem Decl.closed_of_ofTree {ds : List Decl} (h : Decl.ofTree t = .ok ds) (hc : t.Conforms)
    (hn : t.Nearest) : ∀ d ∈ ds, ∀ s ∈ d.stmts, s.IsClosed := by
  obtain ⟨c, hch, ⟨f, -, hf, rfl⟩ | ⟨vs, -, -, rfl⟩⟩ := Decl.ofTree_ok h
  · obtain ⟨n, ty, l, p, b, hfch, -, -, -, -, hb, -, -, -, -, -, hbody⟩ := FuncDecl.ofTree_ok hf
    have hmc : c ∈ t.children := by simp [hch]
    have hmb : b ∈ c.children := by simp [hfch]
    have hmade := (Stmt.recovered b).block hb hbody
    refine List.forall_mem_singleton.mpr (Stmt.forall_mem_substmtsAll.mpr ?_)
    exact hmade.closed ((hc.children c hmc).children b hmb) ((hn.children c hmc).children b hmb)
  · exact List.forall_mem_map.mpr fun v _ => nofun

theorem Program.closed_of_ofTree {p : Program} (h : Program.ofTree t = .ok p) (hc : t.Conforms)
    (hn : t.Nearest) : ∀ s ∈ p.stmts, s.IsClosed := by
  obtain ⟨ds, e, dss, hch, -, -, hdss, hp⟩ := Program.ofTree_ok h
  intro s hs
  obtain ⟨d, hd, hs⟩ := List.mem_flatMap.mp hs
  rw [hp] at hd
  obtain ⟨bs, hbs, hd⟩ := List.mem_flatten.mp hd
  obtain ⟨c, hmem, hok⟩ := Visit.exists_of_mem_mapM hdss hbs
  have hmc : c ∈ t.children := by simp [hch, hmem]
  exact Decl.closed_of_ofTree hok (hc.children c hmc) (hn.children c hmc) d hd s hs

/-- **Every `else` belongs to the nearest `if`**: the first branch of an `if` with an `else`, at any
depth of the program of a script, does not end in an `if` without one. -/
theorem Script.else_at_nearest_if {s : Script} {p : Program} (h : s.program = .ok p) (e : Expr)
    (a b : Stmt) (hmem : .ifElse e a b ∈ p.stmts) (e' : Expr) (x : Stmt) :
    ¬ a.EndsIn (.ifThen e' x) := by
  obtain ⟨t, v, -, hv, hp⟩ := exists_grown_of_program h
  have hclosed : a.endsOpen = false := Program.closed_of_ofTree hp hv.is.conforms hv.nearest _ hmem
  intro hends
  rw [hends.endsOpen rfl] at hclosed
  cases hclosed

/-- The `else` goes to the `if` of the loop, not to the one around the loop. -/
theorem Script.else_at_nearest_if_loop : ∃ p a b,
    (Script.ofSource "a" "f:function void(){if(x)while(y)if(z)return;else break;}").program =
        .ok p ∧
      .ifElse (.id "z") a b ∈ p.stmts ∧ ∀ e x, ¬ a.EndsIn (.ifThen e x) := by
  have hok : ((Script.ofSource "a"
      "f:function void(){if(x)while(y)if(z)return;else break;}").program.toOption.any fun p =>
        p.stmts.any fun
          | .ifElse (.id n) _ _ => n = "z"
          | _ => false) = true := by decide +kernel
  cases h : (Script.ofSource "a"
      "f:function void(){if(x)while(y)if(z)return;else break;}").program with
  | error f => rw [h] at hok; cases hok
  | ok p =>
    rw [h] at hok
    obtain ⟨s, hs, hif⟩ := List.any_eq_true.mp hok
    split at hif
    · next n a b =>
      obtain rfl := of_decide_eq_true hif
      exact ⟨p, a, b, rfl, hs, Script.else_at_nearest_if h _ a b hs⟩
    · cases hif

end Mt22
