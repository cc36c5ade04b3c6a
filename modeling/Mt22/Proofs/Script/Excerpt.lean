import Mt22.Proofs.Parsing.Spans
import Mt22.Proofs.Parsing.Trimmed
import Mt22.Proofs.Script.FirstFault
import Mt22.Proofs.Script.Lexical

/-!
# What a span selects

The span of a fault is shown as two positions.  Since positions grow with offsets, they tell the
stretch of the source that is meant: read between them, the source gives the text of the node at
fault (`Script.excerpt_node`).  That is the literal which the message quotes, or the whole of a
variable group, from its first name to its semicolon (`Script.spans_select_faults`).
-/

namespace Mt22

open Mt22.Tree Mt22.Text

/-- The line and the column of a location. -/
def Location.position (l : Location) : Position := ⟨l.line, l.column⟩

/-- The part of a source between the two ends of a span. -/
def Span.excerpt (sp : Span) (source : List Char) : List Char :=
  between sp.start.position sp.stop.position source

/-- A text of the tree is at fault, and the diagnostic says so: a literal out of its range, which the
message quotes, or a variable group with another number of values than of names, which starts with its
first name and ends with a semicolon. -/
inductive Tree.Offends (t : Tree) (d : Diagnostic) (w : List Char) : Prop
  | integer (i : Tree) (hi : i.Within t) (hr : i.rule? = some .intLit)
      (hv : Number.signedLimit ≤ i.denoted) (hw : i.text = w)
      (hd : d = .literal ("Integer literal " ++ String.ofList w ++ " does not fit in 64 bits.")
        d.location d.span)
  | dimension (i : Tree) (hi : i.Within t) (hr : i.rule? = some .intLit)
      (hv : Number.unsignedLimit ≤ i.denoted) (hw : i.text = w)
      (hd : d = .literal ("Array dimension " ++ String.ofList w ++ " is too large.")
        d.location d.span)
  | group (g ns ty vs n : Tree) (mid : List Char) (hg : g.Within t)
      (hr : g.rule? = some .varDecl) (hc : g.children = [ns, ty, vs])
      (hnr : ns.rule? = some .nameList) (hvr : vs.rule? = some .initializers)
      (hne : ns.children.length ≠ vs.children.length) (hn : ns.children.head? = some n)
      (hir : n.rule? = some .identifier) (hw : g.text = w) (hmid : w = n.text ++ mid ++ [';'])
      (hd : d = ⟨.error, "Declaration of " ++ toString ns.children.length ++ " variable(s) has " ++
        toString vs.children.length ++ " initializer(s).", "mt22.lower.decl.lower_var_decl",
        d.location, d.span⟩)

namespace Script

/-- The text of a node of an accepted script is found between the positions of its two ends. -/
theorem excerpt_node {s : Script} {t u : Tree} (h : s.parse = .ok t) (hu : u.Within t)
    (hn : u.isNode = true) :
    (positionAt s.source u.start).key ≤ (positionAt s.source u.stop).key ∧
      between (positionAt s.source u.start) (positionAt s.source u.stop) s.source = u.text := by
  obtain ⟨pre, post, htext, hcut⟩ := (spans_of_parse h).cut hu
  rw [Nat.zero_add] at hcut
  have hsource : s.source = pre ++ u.text ++ post := by
    rw [← (placed_of_parse h).1, htext, List.append_assoc]
  have hstart : positionAt s.source u.start = .after pre := by
    rw [hcut.start_eq hn, hsource, List.append_assoc, positionAt_append]
  have hstop : positionAt s.source u.stop = .after (pre ++ u.text) := by
    rw [hcut.stop_eq hn, ← byteSize_append, hsource, positionAt_append]
  rw [hstart, hstop]
  refine ⟨?_, ?_⟩
  · rw [Position.after_append]
    exact Position.key_le_through _ _
  · rw [hsource]
    exact between_after pre u.text post

/-- A fault of an accepted script is charged to the text of its node. -/
theorem offends_of_has {s : Script} {t : Tree} {f : Fault} (h : s.parse = .ok t) (hf : t.Has f) :
    t.Offends (s.diagnose (.faulty f)) f.node.text := by
  obtain ⟨u, hu, hf⟩ := hf
  cases hf with
  | @integer i _ hi hr hv => exact .integer i (.trans (.child hi (.self i)) hu) hr hv rfl rfl
  | @dimension i _ hi hr hv => exact .dimension i (.trans (.child hi (.self i)) hu) hr hv rfl rfl
  | @count ns vs hr hns hnr hvs hvr hne =>
    have his : Is .varDecl u := ⟨hr, (is_of_parse h).conforms.within hu⟩
    obtain ⟨ty, hc⟩ := his.varDecl_three hns hnr hvs hvr
    obtain ⟨ns', n, mid, hns', -, hn, hir, htext⟩ :=
      ((trimmed_of_parse h).within hu).varDecl_text his
    obtain rfl : ns = ns' := by
      rw [hc] at hns'
      exact Option.some.inj hns'
    exact .group u ns ty vs n mid hu hr hc hnr hvr (Ne.symm hne) hn hir rfl htext rfl

/-- **Spans select what is at fault.**  Positions count lines, each ended by `\n` or `\r\n`, and
characters in them, and grow with the offsets of characters, so no two offsets share one.  Hence the
location of a fault in an accepted script is where its span starts, the span does not end before it
starts, and read between its two ends the source gives exactly the text at fault. -/
theorem spans_select_faults (s : Script) :
    (∀ pre post, s.source = pre ++ post →
      positionAt s.source (byteSize pre) = Position.throughLines ⟨1, 1⟩ pre) ∧
    StrictMonoOn (fun o => (positionAt s.source o).key)
      {o | String.Pos.Raw.IsValid s.content ⟨o⟩} ∧
    Set.InjOn (positionAt s.source) {o | String.Pos.Raw.IsValid s.content ⟨o⟩} ∧
    ∀ (t : Tree) (e : Failure), s.parse = .ok t → lower t = .error e →
      ∃ sp : Span, (s.diagnose e).span = some sp ∧ (s.diagnose e).location = some sp.start ∧
        sp.start.file = s.name ∧ sp.stop.file = s.name ∧
        sp.start.position.key ≤ sp.stop.position.key ∧
        t.Offends (s.diagnose e) (sp.excerpt s.source) := by
  have hgrow := positionAt_strictMonoOn s.content
  refine ⟨fun pre post hsource => ?_, hgrow, ?_, fun t e h he => ?_⟩
  · rw [hsource, positionAt_append]
    exact Position.through_eq_throughLines .first pre
  · intro a ha b hb hab
    exact hgrow.injOn ha hb (congrArg Position.key hab)
  · have ht := is_of_parse h
    have hblames : Blames (Program.ofTree t) t.Has := ht.conforms.settled ht.rule
    obtain ⟨f, hf, rfl⟩ := lower_error he
    rw [hf] at hblames
    have hhas : t.Has f := hblames
    obtain ⟨hwithin, hnode⟩ := hhas.within
    obtain ⟨hle, hbetween⟩ := excerpt_node h hwithin hnode
    refine ⟨_, rfl, rfl, rfl, rfl, hle, ?_⟩
    have hexcerpt : (Span.mk (.ofPosition s.name (positionAt s.source f.node.start))
        (.ofPosition s.name (positionAt s.source f.node.stop))).excerpt s.source =
          f.node.text := hbetween
    rw [hexcerpt]
    exact offends_of_has h hhas

/-- A group with one value too few, after characters of two bytes and a `\r` by itself, over the end
of a line. -/
theorem spans_select_faults_lines :
    let s := Script.ofSource "lines" "a: string = \"\u00e9\";\r\n\rx, y:\r integer = 1\r\n;"
    ∃ t e sp, s.parse = .ok t ∧ lower t = .error e ∧ (s.diagnose e).span = some sp ∧
      sp = ⟨⟨"lines", 2, 2⟩, ⟨"lines", 3, 2⟩⟩ ∧
      sp.excerpt s.source = "x, y:\r integer = 1\r\n;".toList ∧
      t.Offends (s.diagnose e) (sp.excerpt s.source) := by
  intro s
  have hok : s.parse.isOk = true := by decide +kernel
  have hfail : (match s.program with
      | .ok _ => none
      | .error e => (s.diagnose e).span) = some ⟨⟨"lines", 2, 2⟩, ⟨"lines", 3, 2⟩⟩ := by
    decide +kernel
  cases h : s.parse with
  | error e => rw [h] at hok; cases hok
  | ok t =>
    rw [program_of_parse h] at hfail
    cases he : lower t with
    | ok p => rw [he] at hfail; cases hfail
    | error e =>
      rw [he] at hfail
      obtain ⟨sp, hsp, -, -, -, -, hoffends⟩ := (spans_select_faults s).2.2.2 t e h he
      obtain rfl : sp = ⟨⟨"lines", 2, 2⟩, ⟨"lines", 3, 2⟩⟩ := Option.some.inj (hsp.symm.trans hfail)
      exact ⟨t, e, _, rfl, he, hsp, rfl, by decide +kernel, hoffends⟩

end Script

end Mt22
