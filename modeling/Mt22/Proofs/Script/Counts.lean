import Mathlib.Data.List.TakeWhile
import Mt22.Proofs.Program.MadeDecl
import Mt22.Proofs.Script.Join
import Mt22.Proofs.Tree.Census

/-!
# Counts of a program and of its tree

The counts of the program of a script are those of its syntax tree (`Script.stats_eq_census`).  The
two are shaped differently: a statement is counted once on the tree, at its own node and not at the
node of its form; the body of a `do` loop is a block but no statement; and the variables of a group
are counted at the block or declaration that the group stands in.
-/

namespace Mt22

open Mt22.Tree Mt22.Visit

variable {t : Tree}

/-! ### Groups of variables -/

namespace Tree

/-- The local variables that groups declare, where they stand in a block. -/
def localsOf (ts : List Tree) : Stats :=
  { Stats.zero with
    locals := (follow [.varDecl, .nameList] ts).countP (·.rule? = some .identifier) }

theorem localsOf_cons (t : Tree) (ts : List Tree) :
    localsOf (t :: ts) = localsOf [t] + localsOf ts := by
  rw [← List.singleton_append, localsOf, follow_append, List.countP_append]
  rfl

theorem localsOf_eq (ts : List Tree) : localsOf ts = (ts.map fun t => localsOf [t]).sum := by
  induction ts with
  | nil => rfl
  | cons t ts ih => rw [localsOf_cons, ih, List.map_cons, List.sum_cons]

theorem localsOf_of_rule {r : Rule} (h : t.rule? = some r) (hr : r ≠ .varDecl) :
    localsOf [t] = 0 := by
  simp [localsOf, follow, h, hr]
  rfl

end Tree

/-- A group declares a variable for each identifier in its list of names. -/
theorem VarDecl.length_of_ofGroup {vs : List VarDecl} (ht : t.Conforms) (h : ofGroup t = .ok vs) :
    (follow [.nameList] t.children).countP (·.rule? = some .identifier) = vs.length := by
  obtain ⟨n, ty, i, ns, τ, hc, hn, hty, hi, hns, -, hvs⟩ := ofGroup_ok h
  have hnames : ∀ c ∈ n.children, c.rule? = some .identifier := by
    have his : Is .nameList n := ⟨hn, ht.children n (by simp [hc])⟩
    exact fun c hmem => ((his.commaList .identifier (by decide) rfl).2 c hmem).rule
  have hfollow : follow [.nameList] t.children = n.children := by
    cases i with
    | none => simp [follow, hc, hn, hty]
    | some l => simp [follow, hc, hn, hty, hi l rfl]
  have hlen : ns.length = n.children.length := by
    rw [names_ok hns, List.length_map, List.takeWhile_eq_self_iff.mpr]
    simpa using hnames
  rw [hfollow, List.countP_eq_length.mpr (by simpa using hnames), ← hlen]
  rcases hvs with ⟨-, rfl⟩ | ⟨l, es, -, -, hes, rfl⟩
  · rw [List.length_map]
  · rw [List.length_zipWith, hes, Nat.min_self]

/-! ### Statements -/

namespace Stmt

theorem statsAll_eq (ss : List Stmt) : statsAll ss = (ss.map stats).sum := by
  induction ss with
  | nil => rfl
  | cons s ss ih => rw [statsAll, ih, List.map_cons, List.sum_cons]

theorem statsAll_flatMap (cs : List Tree) (f : Tree → List Stmt) :
    statsAll (cs.flatMap f) = (cs.map fun c => statsAll (f c)).sum := by
  induction cs with
  | nil => rfl
  | cons c cs ih =>
    rw [List.flatMap_cons, statsAll_eq, List.map_append, List.sum_append, ← statsAll_eq,
      ← statsAll_eq, ih, List.map_cons, List.sum_cons]

theorem statsAll_singleton (s : Stmt) : statsAll [s] = s.stats := add_zero s.stats

theorem statsAll_declare (vs : List VarDecl) :
    statsAll (vs.map .declare) = { Stats.zero with locals := vs.length } := by
  rw [statsAll_eq, List.sum_eq_card_nsmul _ .oneLocal (by simp [stats]), Stats.nsmul_eq]
  simp [Stats.oneLocal, Stats.zero]

/-- What a node is counted for that stands above it in the tree: the form of a statement for the
statement, and a group for its variables. -/
def lead (t : Tree) : Stats :=
  match t.rule? with
  | some .varDecl => localsOf [t]
  | some .statement | some .block => 0
  | _ => .oneStatement

theorem censusOf_statement (h : t.rule? = some .statement) : censusOf [t] = .oneStatement := by
  simp [censusOf, follow, h, Stats.oneStatement, Stats.zero]

theorem censusOf_block (h : t.rule? = some .block) : censusOf [t] = localsOf t.children := by
  simp [censusOf, follow, h, localsOf, Stats.zero]

theorem lead_of_form {r : Rule} (h : t.rule? = some r) (hmem : r ∈ formRules) (hne : r ≠ .block) :
    lead t = .oneStatement := by
  rw [lead, h]
  split
  · next heq =>
    obtain rfl := Option.some.inj heq
    exact absurd hmem (by decide)
  · next heq =>
    obtain rfl := Option.some.inj heq
    exact absurd hmem (by decide)
  · next heq => exact absurd (Option.some.inj heq) hne
  · rfl

/-- Within a block, only groups lead. -/
theorem lead_of_item (h : t.rule? = some .varDecl ∨ t.rule? = some .statement) :
    lead t = localsOf [t] := by
  rcases h with h | h
  · rw [lead, h]
  · rw [lead, h, localsOf_of_rule h (by decide)]

theorem Made.census {ss : List Stmt} (h : Made t ss) (hc : t.Conforms) :
    statsAll ss = lead t + t.census := by
  induction h with
  | @statement t f r s hr hch hf hmem hne hs ih =>
    have hlead : lead t = 0 := by rw [lead, hr]
    rw [ih (hc.children f (by simp [hch])), lead_of_form hf hmem hne, hlead, zero_add, census_eq hr,
      censusOf_statement hr, hch, List.map_singleton, List.sum_singleton]
  | @nested t b ss hr hch hb hss ih =>
    have hlead : lead t = 0 := by rw [lead, hr]
    have hleadb : lead b = 0 := by rw [lead, hb]
    rw [statsAll_singleton, stats, ih (hc.children b (by simp [hch])), hlead, hleadb, zero_add,
      zero_add, census_eq hr, censusOf_statement hr, hch, List.map_singleton, List.sum_singleton]
  | @block t f hr hch hss ih =>
    have hlead : lead t = 0 := by rw [lead, hr]
    have hitems : ∀ c ∈ t.children, statsAll (f c) = localsOf [c] + c.census := by
      intro c hmem
      rw [ih c hmem (hc.children c hmem), lead_of_item (hch c hmem)]
    rw [statsAll_flatMap, List.map_congr_left hitems, List.sum_map_add, hlead, zero_add,
      census_eq hr, censusOf_block hr, localsOf_eq]
  | @group t vs hr hvs =>
    have hlead : lead t = localsOf [t] := lead_of_item (.inl hr)
    have hlocals : localsOf [t] = { Stats.zero with locals := vs.length } := by
      simp only [localsOf, ← VarDecl.length_of_ofGroup hc hvs]
      simp [follow, hr]
    rw [statsAll_declare, hlead, hlocals, Is.census_eq_zero ⟨hr, hc⟩ rfl, add_zero]
  | @ifThen t e a x y hr hch he ha hx hy ih =>
    have hy := ih (hc.children a (by simp [hch]))
    rw [statsAll_singleton, lead, ha] at hy
    rw [statsAll_singleton, stats, hy, lead, hr, census_of_not_counted hr rfl, hch]
    simp [hc.census_child (by simp [hch]) he rfl]
  | @ifElse t e a b x y z hr hch he ha hb hx hy hz ihy ihz =>
    have hy := ihy (hc.children a (by simp [hch]))
    have hz := ihz (hc.children b (by simp [hch]))
    rw [statsAll_singleton, lead, ha] at hy
    rw [statsAll_singleton, lead, hb] at hz
    rw [statsAll_singleton, stats, hy, hz, lead, hr, census_of_not_counted hr rfl, hch]
    simp [hc.census_child (by simp [hch]) he rfl]
  | @forLoop t a c u b i x y z hr hch ha hcond hu hb hi hx hy hz ih =>
    have hz := ih (hc.children b (by simp [hch]))
    rw [statsAll_singleton, lead, hb] at hz
    rw [statsAll_singleton, stats, hz, lead, hr, census_of_not_counted hr rfl, hch]
    simp [hc.census_child (by simp [hch]) ha rfl, hc.census_child (by simp [hch]) hcond rfl,
      hc.census_child (by simp [hch]) hu rfl]
  | @whileLoop t c b x z hr hch hcond hb hx hz ih =>
    have hz := ih (hc.children b (by simp [hch]))
    rw [statsAll_singleton, lead, hb] at hz
    rw [statsAll_singleton, stats, hz, lead, hr, census_of_not_counted hr rfl, hch]
    simp [hc.census_child (by simp [hch]) hcond rfl]
  | @doLoop t b c ss x hr hch hb hcond hss hx ih =>
    have hss := ih (hc.children b (by simp [hch]))
    rw [lead, hb] at hss
    rw [statsAll_singleton, stats, hss, lead, hr, census_of_not_counted hr rfl, hch]
    simp [hc.census_child (by simp [hch]) hcond rfl]
  | breakLoop hr | continueLoop hr | ret hr | retValue hr | call hr | assign hr =>
    rw [statsAll_singleton, stats, lead, hr, Is.census_eq_zero ⟨hr, hc⟩ rfl, add_zero]

end Stmt

/-! ### Declarations -/

theorem Param.census_of_ofTree {p : Param} (h : Param.ofTree t = .ok p)
    (hr : t.rule? = some .paramDecl) (hc : t.Conforms) : t.census = { Stats.zero with params := 1 } := by
  obtain ⟨i, o, n, ty, hch, hi, ho, hn, hty, -⟩ := Param.ofTree_ok h
  have hzero : (t.children.map census).sum = 0 := by
    refine List.sum_eq_zero (List.forall_mem_map.mpr fun c hmem => ?_)
    have hcase := hmem
    simp only [hch, List.mem_append, Option.mem_toList, List.mem_cons, List.not_mem_nil,
      or_false] at hcase
    rcases hcase with hx | hx | rfl | rfl
    · exact hc.census_child hmem (hi c hx) rfl
    · exact hc.census_child hmem (ho c hx) rfl
    · exact hc.census_child hmem hn rfl
    · exact hc.census_child hmem hty rfl
  rw [census_eq hr, hzero, add_zero]
  simp [censusOf, follow, hr, Stats.zero]

theorem Param.census_of_listOfTree {ps : List Param} (h : Param.listOfTree t = .ok ps)
    (hr : t.rule? = some .paramList) (hc : t.Conforms) :
    t.census = { Stats.zero with params := ps.length } := by
  obtain ⟨hrules, hps⟩ := Param.listOfTree_ok h
  have hone : ∀ c ∈ t.children, c.census = { Stats.zero with params := 1 } := by
    intro c hmem
    obtain ⟨p, hp⟩ := exists_of_mapM hps hmem
    exact Param.census_of_ofTree hp (hrules c hmem) (hc.children c hmem)
  rw [census_of_not_counted hr rfl, List.sum_eq_card_nsmul _ { Stats.zero with params := 1 }
    (List.forall_mem_map.mpr hone), Stats.nsmul_eq, List.length_map, length_of_mapM hps]
  simp [Stats.zero]

namespace Decl

/-- A function, the names of its parameters and its body. -/
theorem func_stats {f : FuncDecl} (h : FuncDecl.ofTree t = .ok f) (hr : t.rule? = some .funcDecl)
    (hc : t.Conforms) : (func f).stats = t.census := by
  obtain ⟨n, ty, l, p, b, hch, hn, hty, hl, hp, hb, -, -, hps, hnone, -, hbody⟩ :=
    FuncDecl.ofTree_ok h
  have hbody := ((Stmt.recovered b).block hb hbody).census (hc.children b (by simp [hch]))
  rw [Stmt.lead, hb] at hbody
  have hparams : (l.toList.map census).sum = { Stats.zero with params := f.params.length } := by
    cases l with
    | none =>
      rw [hnone rfl]
      rfl
    | some x =>
      have hx := Param.census_of_listOfTree (hps x rfl) (hl x rfl) (hc.children x (by simp [hch]))
      rw [Option.toList_some, List.map_singleton, List.sum_singleton, hx]
  have hparent : (p.toList.map census).sum = 0 := by
    cases p with
    | none => rfl
    | some x =>
      rw [Option.toList_some, List.map_singleton, List.sum_singleton,
        hc.census_child (by simp [hch]) (hp x rfl) rfl]
  have hself : censusOf [t] = { Stats.zero with functions := 1 } := by
    simp [censusOf, follow, hr, Stats.zero]
  rw [census_eq hr, hch, hself]
  simp only [List.map_cons, List.map_append, List.sum_cons, List.sum_append, List.map_nil,
    List.sum_nil, hparams, hparent, hc.census_child (by simp [hch]) hn rfl,
    hc.census_child (by simp [hch]) hty rfl, zero_add, add_zero]
  rw [stats, hbody, zero_add, ← add_assoc]
  congr 1
  simp [Stats.add_eq, Stats.zero]

theorem sum_stats_var (vs : List VarDecl) :
    ((vs.map var).map stats).sum = { Stats.zero with globals := vs.length } := by
  rw [List.sum_eq_card_nsmul _ { Stats.zero with globals := 1 } (by simp [stats]), Stats.nsmul_eq]
  simp [Stats.zero]

theorem sum_stats {ds : List Decl} (h : ofTree t = .ok ds) (hr : t.rule? = some .declaration)
    (hc : t.Conforms) : (ds.map stats).sum = t.census := by
  obtain ⟨c, hch, ⟨f, hrule, hf, rfl⟩ | ⟨vs, hrule, hvs, rfl⟩⟩ := ofTree_ok h
  · have hself : censusOf [t] = 0 := by simp [censusOf, follow, hr, hch, hrule, Stats.zero_eq]
    rw [List.map_singleton, List.sum_singleton, func_stats hf hrule (hc.children c (by simp [hch])),
      census_eq hr, hself, hch, zero_add, List.map_singleton, List.sum_singleton]
  · have hself : censusOf [t] = { Stats.zero with globals := vs.length } := by
      rw [← VarDecl.length_of_ofGroup (hc.children c (by simp [hch])) hvs]
      simp [censusOf, follow, hr, hch, hrule, Stats.zero]
    rw [sum_stats_var, census_eq hr, hself, hch, List.map_singleton, List.sum_singleton,
      hc.census_child (by simp [hch]) hrule rfl, add_zero]

end Decl

theorem Program.stats_of_ofTree {p : Program} (h : Program.ofTree t = .ok p) (ht : Is .program t) :
    p.stats = t.census := by
  obtain ⟨ds, e, dss, hch, hds, he, hdss, hp⟩ := Program.ofTree_ok h
  have hstats : p.stats = (ds.map census).sum := by
    show (p.decls.map Decl.stats).sum = _
    have hall := mapM_ok.mp hdss
    have hmem : ∀ d ∈ ds, d.rule? = some .declaration ∧ d.Conforms :=
      fun d hd => ⟨hds d hd, ht.conforms.children d (by simp [hch, hd])⟩
    rw [hp]
    clear hch hds hdss hp
    induction hall with
    | nil => rfl
    | @cons d bs ds dss hd _ ih =>
      obtain ⟨⟨hr, hc⟩, hmem⟩ := List.forall_mem_cons.mp hmem
      rw [List.flatten_cons, List.map_append, List.sum_append, ih hmem, Decl.sum_stats hd hr hc,
        List.map_cons, List.sum_cons]
  rw [hstats, census_of_not_counted ht.rule rfl, hch, List.map_append, List.sum_append,
    List.map_singleton, List.sum_singleton, ht.conforms.census_child (by simp [hch]) he rfl, add_zero]

/-- **The counts of a program are those of its syntax tree.** -/
theorem Script.stats_eq_census {s : Script} {t : Tree} {p : Program} (ht : s.parse = .ok t)
    (h : s.program = .ok p) : p.stats = t.census := by
  rw [program_of_parse ht, lower] at h
  cases hp : Program.ofTree t with
  | error f => rw [hp] at h; cases h
  | ok q =>
    rw [hp] at h
    cases h
    exact Program.stats_of_ofTree hp (is_of_parse ht)

/-- The body of the `do` loop is a block, but no statement. -/
theorem Script.stats_eq_census_loop :
    let s := Script.ofSource "a"
      "x,y:integer;f:function void(a:auto){do{i,j:auto;if(a)return;}while(a);}"
    ∃ t p, s.parse = .ok t ∧ s.program = .ok p ∧ p.stats = t.census ∧ t.census = ⟨1, 2, 1, 2, 3⟩ := by
  intro s
  have hok : s.program.toOption.map Program.stats = some ⟨1, 2, 1, 2, 3⟩ := by decide +kernel
  cases ht : s.parse with
  | error e =>
    have hs : s.program = .error e := by rw [Script.program, ht]; rfl
    rw [hs] at hok
    cases hok
  | ok t =>
    cases hp : s.program with
    | error e => rw [hp] at hok; cases hok
    | ok p =>
      rw [hp] at hok
      have hstats := Script.stats_eq_census ht hp
      exact ⟨t, p, rfl, rfl, hstats, hstats.symm.trans (Option.some.inj hok)⟩

end Mt22
