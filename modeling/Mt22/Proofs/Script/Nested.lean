import Mathlib.Data.List.Basic
import Mt22.Proofs.Parsing.Spans

/-!
# Nested spans

The span of a node lies on boundaries of characters, inside the span of its parent and after those
of the nodes before it (`Tree.Nested`).  All of this follows from `Tree.Spans`: a node starts where
the text before it ends, and its children share out its text among them.  So it holds of whatever is
read, by any rule, and an accepted script is spanned by its tree from end to end
(`Script.nested_spans`).
-/

namespace Mt22

open Mt22.Text

namespace Tree

/-- The span of a node of a source text, beside those of its children: it lies in the text and on
boundaries of characters, and the children lie inside it, one after the other. -/
structure Nested (source : String) (t : Tree) : Prop where
  ordered : t.start ≤ t.stop
  bounded : t.stop ≤ source.utf8ByteSize
  start_valid : String.Pos.Raw.IsValid source ⟨t.start⟩
  stop_valid : String.Pos.Raw.IsValid source ⟨t.stop⟩
  inside : ∀ c ∈ t.children, t.start ≤ c.start ∧ c.stop ≤ t.stop
  siblings : t.children.Pairwise fun c d => c.stop ≤ d.start

/-- Nodes among trees that share out a text lie in it. -/
theorem SpansAll.inside {o : Nat} {ts : List Tree} (h : SpansAll o ts) {c : Tree}
    (hc : c ∈ nodes ts) : o ≤ c.start ∧ c.stop ≤ o + byteSize (textAll ts) := by
  obtain ⟨hmem, hnode⟩ := List.mem_filter.mp hc
  obtain ⟨pre, post, htext, hspans⟩ := h.cut hmem
  rw [hspans.start_eq hnode, hspans.stop_eq hnode, htext, byteSize_append, byteSize_append]
  omega

/-- Nodes among trees that share out a text stand one after the other. -/
theorem SpansAll.siblings {o : Nat} {ts : List Tree} (h : SpansAll o ts) :
    (nodes ts).Pairwise fun c d => c.stop ≤ d.start := by
  induction ts generalizing o with
  | nil => exact .nil
  | cons t ts ih =>
    obtain ⟨ht, hts⟩ := h
    cases hn : t.isNode with
    | false =>
      rw [nodes, List.filter_cons_of_neg (by simp [hn])]
      exact ih hts
    | true =>
      rw [nodes, List.filter_cons_of_pos hn]
      refine List.pairwise_cons.mpr ⟨fun d hd => ?_, ih hts⟩
      rw [ht.stop_eq hn]
      exact (hts.inside hd).1

/-- A node that is cut out of a source text at its offsets. -/
theorem Spans.nested {source : String} {pre post : List Char} {t : Tree}
    (h : t.Spans (byteSize pre)) (hn : t.isNode = true)
    (hsource : source.toList = pre ++ (t.text ++ post)) : t.Nested source := by
  have hstart := h.start_eq hn
  have hstop := h.stop_eq hn
  have hsize : source.utf8ByteSize = byteSize pre + (byteSize t.text + byteSize post) := by
    rw [← byteSize_append, ← byteSize_append, ← hsource, byteSize_eq_utf8ByteSize,
      String.ofList_toList]
  have hparts : SpansAll t.start t.parts ∧ t.text = textAll t.parts := by
    cases t with
    | token | trivia => cases hn
    | node r a b ps => exact ⟨h.1.symm ▸ h.2.2, rfl⟩
  refine ⟨?_, ?_, ?_, ?_, fun c hc => ?_, hparts.1.siblings⟩
  · omega
  · omega
  · rw [hstart]
    exact isValid_byteSize hsource
  · rw [hstop, ← byteSize_append]
    rw [← List.append_assoc] at hsource
    exact isValid_byteSize hsource
  · obtain ⟨hleft, hright⟩ := hparts.1.inside hc
    rw [← hparts.2] at hright
    omega

theorem Within.isNode {t u : Tree} (h : u.Within t) (ht : t.isNode = true) : u.isNode = true := by
  induction h with
  | self => exact ht
  | child hc _ ih => exact ih (List.mem_filter.mp hc).2

/-- All nodes of a tree whose text is a part of a source text. -/
theorem Spans.nested_within {source : String} {pre post : List Char} {t u : Tree}
    (h : t.Spans (byteSize pre)) (hn : t.isNode = true)
    (hsource : source.toList = pre ++ (t.text ++ post)) (hu : u.Within t) : u.Nested source := by
  obtain ⟨pre', post', htext, hspans⟩ := h.cut hu
  rw [← byteSize_append] at hspans
  have hcut : source.toList = (pre ++ pre') ++ (u.text ++ (post' ++ post)) := by
    rw [hsource, htext]
    simp only [List.append_assoc]
  exact hspans.nested (hu.isNode hn) hcut

end Tree

open Mt22.Tree

namespace Script

/-- What a rule leaves at the start of a script spans the text that it took. -/
theorem spansAll_of_parseRule {s : Script} {r : Rule} {ts : List Tree}
    (h : s.parseRule r = .ok ts) :
    ∃ us rest, ts = nodes us ∧ SpansAll 0 us ∧ s.source = textAll us ++ rest := by
  rw [parseRule] at h
  cases hr : r.read s.source with
  | error w => rw [hr] at h; cases h
  | ok us =>
    rw [hr] at h
    obtain ⟨c, hreads⟩ := Rule.read_eq_ok_iff.mp hr
    exact ⟨us, c.rest, (Except.ok.inj h).symm, (Peg.spans_of_matches hreads).1,
      hreads.textAll_rest.symm⟩

/-- **Spans are nested**, whatever the rule by which a script is read: every node lies in the text
and on boundaries of characters, its children lie inside it, and siblings do not overlap.  The tree
of an accepted script spans the whole of it, from the first declaration to the empty node at its
end. -/
theorem nested_spans (s : Script) :
    (∀ (r : Rule) (ts : List Tree), s.parseRule r = .ok ts →
      (∀ t ∈ ts, ∀ u : Tree, u.Within t → u.Nested s.content) ∧
        ts.Pairwise fun t u => t.stop ≤ u.start) ∧
    ∀ t : Tree, s.parse = .ok t →
      (∀ u : Tree, u.Within t → u.Nested s.content) ∧
      t.rule? = some .program ∧ t.start = 0 ∧ t.stop = s.content.utf8ByteSize ∧
      ∃ ds e, t.children = ds ++ [e] ∧ ds ≠ [] ∧ (∀ d ∈ ds, d.rule? = some .declaration) ∧
        e.rule? = some .eoi ∧ e.start = s.content.utf8ByteSize ∧
        e.stop = s.content.utf8ByteSize := by
  refine ⟨fun r ts h => ?_, fun t h => ?_⟩
  · obtain ⟨us, rest, rfl, hspans, hsource⟩ := spansAll_of_parseRule h
    refine ⟨fun t ht u hu => ?_, hspans.siblings⟩
    obtain ⟨hmem, hnode⟩ := List.mem_filter.mp ht
    obtain ⟨pre, post, htext, hcut⟩ := hspans.cut hmem
    rw [Nat.zero_add] at hcut
    have hsource : s.content.toList = pre ++ (t.text ++ (post ++ rest)) := by
      change s.source = _
      rw [hsource, htext]
      simp only [List.append_assoc]
    exact hcut.nested_within hnode hsource hu
  · have hspans := spans_of_parse h
    have ht := is_of_parse h
    have hnode := isNode_of_rule ht.rule
    have htext : s.content.toList = t.text := (placed_of_parse h).1.symm
    have hsource : s.content.toList = [] ++ (t.text ++ []) := by
      rw [List.append_nil, List.nil_append, htext]
    have hleft : t.Spans (byteSize []) := hspans
    have hnested : ∀ u : Tree, u.Within t → u.Nested s.content := fun u hu =>
      hleft.nested_within hnode hsource hu
    have hstop : t.stop = s.content.utf8ByteSize := by
      rw [hspans.stop_eq hnode, ← htext, Nat.zero_add, byteSize_eq_utf8ByteSize,
        String.ofList_toList]
    obtain ⟨ds, c, o, -, -, rfl⟩ := readings_of_parse h
    obtain ⟨xs, e, hchildren, hne, hdecls, heoi⟩ := ht.program
    -- the node at the end is the last child, where the tree stops
    obtain rfl : e = .node .eoi o o [] := by
      rw [children, parts, ← List.append_assoc, ← List.append_assoc, nodes_append] at hchildren
      exact (List.cons.inj (List.append_inj_right' hchildren rfl)).1.symm
    exact ⟨hnested, rfl, rfl, hstop, xs, _, hchildren, hne, fun d hd => (hdecls d hd).rule, rfl,
      hstop, hstop⟩

/-- Characters of two and three bytes, in a string and in the comment at the end. -/
theorem nested_spans_wide :
    let s := Script.ofSource "wide" "x: string = \"\u00e9\u20ac\"; // \u20ac"
    ∃ t, s.parse = .ok t ∧ (∀ u : Tree, u.Within t → u.Nested s.content) ∧ t.start = 0 ∧
      t.stop = 27 := by
  intro s
  have hok : s.parse.isOk = true := by decide +kernel
  have hsize : s.content.utf8ByteSize = 27 := by decide +kernel
  cases h : s.parse with
  | error e => rw [h] at hok; cases hok
  | ok t =>
    obtain ⟨hnested, -, hstart, hstop, -⟩ := (nested_spans s).2 t h
    exact ⟨t, rfl, hnested, hstart, hstop.trans hsize⟩

end Script

end Mt22
