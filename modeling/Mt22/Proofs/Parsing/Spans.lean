import Mt22.Proofs.Program.Blame
import Mt22.Proofs.Script.Reading
import Mt22.Proofs.Text.Position

/-!
# Spans

Every node of a tree that was read carries the byte offsets of its own text: `Tree.Spans o t` says so
of a tree whose text starts at the offset `o`, and it holds of whatever is read
(`Peg.spans_of_matches`).  So the text of a node can be cut out of the source at its offsets
(`Tree.Spans.cut`), and the positions of the two offsets are those after the text before the node and
after its own (`Text.positionAt_append`).
-/

namespace Mt22

open Mt22.Text

namespace Tree

mutual

/-- The nodes of a tree whose text starts at the offset `o` span their texts. -/
def Spans (o : Nat) : Tree → Prop
  | node _ a b ps => a = o ∧ b = o + byteSize (textAll ps) ∧ SpansAll o ps
  | _ => True

/-- The nodes of trees that stand one after the other, from the offset `o` on, span their texts. -/
def SpansAll (o : Nat) : List Tree → Prop
  | [] => True
  | t :: ts => t.Spans o ∧ SpansAll (o + byteSize t.text) ts

end

theorem spansAll_append {o : Nat} {xs ys : List Tree} :
    SpansAll o (xs ++ ys) ↔ SpansAll o xs ∧ SpansAll (o + byteSize (textAll xs)) ys := by
  induction xs generalizing o with
  | nil => exact (and_iff_right trivial).symm
  | cons x xs ih =>
    rw [List.cons_append, SpansAll, SpansAll, ih, textAll, byteSize_append, Nat.add_assoc, and_assoc]

/-- A part of a list that spans its text is cut out of it. -/
theorem SpansAll.cut {o : Nat} {ts : List Tree} {t : Tree} (h : SpansAll o ts) (ht : t ∈ ts) :
    ∃ pre post, textAll ts = pre ++ (t.text ++ post) ∧ t.Spans (o + byteSize pre) := by
  obtain ⟨xs, ys, rfl⟩ := List.append_of_mem ht
  obtain ⟨-, h⟩ := spansAll_append.mp h
  exact ⟨textAll xs, textAll ys, by rw [textAll_append, textAll], h.1⟩

/-- **The text of a node within a tree is cut out of the text of the tree at the node's offsets.** -/
theorem Spans.cut {o : Nat} {t u : Tree} (h : t.Spans o) (hu : u.Within t) :
    ∃ pre post, t.text = pre ++ (u.text ++ post) ∧ u.Spans (o + byteSize pre) := by
  induction hu generalizing o with
  | self => exact ⟨[], [], (List.append_nil _).symm, h⟩
  | @child c t hc _ ih =>
    cases t with
    | token | trivia => cases hc
    | node r a b ps =>
      obtain ⟨-, -, hall⟩ := h
      obtain ⟨pre, post, htext, hspans⟩ := hall.cut (List.mem_filter.mp hc).1
      obtain ⟨pre', post', htext', hspans'⟩ := ih hspans
      refine ⟨pre ++ pre', post' ++ post, ?_, ?_⟩
      · show textAll ps = _
        rw [htext, htext']
        simp only [List.append_assoc]
      · rw [byteSize_append, ← Nat.add_assoc]
        exact hspans'

theorem Spans.start_eq {o : Nat} {t : Tree} (h : t.Spans o) (hn : t.isNode = true) : t.start = o := by
  cases t with
  | token | trivia => cases hn
  | node r a b ps => exact h.1

theorem Spans.stop_eq {o : Nat} {t : Tree} (h : t.Spans o) (hn : t.isNode = true) :
    t.stop = o + byteSize t.text := by
  cases t with
  | token | trivia => cases hn
  | node r a b ps => exact h.2.1

end Tree

open Mt22.Tree

/-! ### What is read spans its text -/

namespace Mode

theorem spans_skip (m : Mode) (c : Cursor) : SpansAll c.offset (m.skip c).1 ∧
    (m.skip c).2.offset = c.offset + byteSize (textAll (m.skip c).1) := by
  unfold skip
  split
  · by_cases he : (Trivia.skip c.rest).1 = []
    · simp [he, Cursor.moved, SpansAll]
    · simp [he, Cursor.moved, SpansAll, Spans, textAll, Tree.text]
  · exact ⟨trivial, rfl⟩

theorem spans_leave (m : Mode) (r : Rule) {c c' : Cursor} {parts : List Tree}
    (h : SpansAll c.offset parts) (hc : c'.offset = c.offset + byteSize (textAll parts)) :
    SpansAll c.offset (m.leave r c c' parts) := by
  unfold leave
  split
  · refine ⟨⟨rfl, ?_, ?_⟩, trivial⟩
    · rw [hc]
      split
      · simp [textAll, Tree.text]
      · rfl
    · split
      · exact ⟨trivial, trivial⟩
      · exact h
  · exact h

end Mode

namespace Peg

/-- Two readings, one after the other. -/
theorem spans_append {c d e : Cursor} {xs ys : List Tree}
    (hx : SpansAll c.offset xs ∧ d.offset = c.offset + byteSize (textAll xs))
    (hy : SpansAll d.offset ys ∧ e.offset = d.offset + byteSize (textAll ys)) :
    SpansAll c.offset (xs ++ ys) ∧ e.offset = c.offset + byteSize (textAll (xs ++ ys)) := by
  refine ⟨spansAll_append.mpr ⟨hx.1, hx.2 ▸ hy.1⟩, ?_⟩
  rw [hy.2, hx.2, textAll_append, byteSize_append, Nat.add_assoc]

/-- **What is read spans its text**, and the place that is reached is the end of that text. -/
theorem spans_of_matches {m : Mode} {e : Peg} {c c' : Cursor} {ts : List Tree}
    (h : Matches m e c ts c') :
    SpansAll c.offset ts ∧ c'.offset = c.offset + byteSize (textAll ts) := by
  induction h with
  | text | one => exact ⟨⟨trivial, trivial⟩, by simp [Cursor.moved, textAll, Tree.text]⟩
  | start | finish | without | starNil | moreNil | ahead | absent => exact ⟨trivial, rfl⟩
  | @call m r _ _ _ _ ih => exact ⟨m.spans_leave r ih.1 ih.2, by rw [Mode.textAll_leave, ih.2]⟩
  | @seq m _ _ _ ca _ _ _ _ _ iha ihb => exact spans_append (spans_append iha (m.spans_skip ca)) ihb
  | left _ ih | right _ _ ih | within _ ih => exact ih
  | starCons _ _ iha ihu => exact spans_append iha ihu
  | @moreCons m _ c _ _ _ _ _ _ iha ihu =>
    exact spans_append (spans_append (m.spans_skip c) iha) ihu

end Peg

/-- The tree of an accepted script spans its text. -/
theorem Script.spans_of_parse {s : Script} {t : Tree} (h : s.parse = .ok t) : t.Spans 0 := by
  obtain ⟨ts, c, hreads, hnodes⟩ := parse_eq_ok_iff.mp h
  have hspans := (Peg.spans_of_matches hreads).1
  cases hreads with
  | @call _ _ _ _ parts _ =>
    obtain rfl : .node .program 0 c.offset parts = t := (List.cons.inj hnodes).1
    exact hspans.1

end Mt22
