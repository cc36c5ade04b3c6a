import Mt22.Proofs.Parsing.Enough
import Mt22.Proofs.Parsing.Sound
import Mt22.Proofs.Tree.Shapes
import Mt22.Script.Basic

/-!
# Accepted scripts

A script is accepted if the grammar reads a program at its start, which by the grammar goes on to
its end.  That the script must not be blank adds nothing: a program has a colon in it.
-/

namespace Mt22

open Mt22.Tree

namespace Script

/-- What the rule of programs leaves when it is read. -/
theorem program_of_matches {c c' : Cursor} {ts : List Tree}
    (h : Peg.Matches .normal (.call .program) c ts c') :
    ∃ t, nodes ts = [t] ∧ Is .program t := by
  obtain ⟨hf, hc, -⟩ := Peg.fits_of_matches h rfl rfl
  obtain ⟨t, ht, hr⟩ := Peg.Fits.call_iff.mp hf
  have hnodes : nodes ts = [t] := by
    rw [← nodes_solid, ht, nodes_cons_of_rule hr, nodes_nil]
  have hmem : t ∈ ts ∧ t.isNode = true := by
    rw [← List.mem_filter, ← nodes, hnodes]
    exact List.mem_singleton.mpr rfl
  exact ⟨t, hnodes, hr, hc t hmem.1 hmem.2⟩

/-- A declaration has a colon in it. -/
theorem colon_mem_text {t : Tree} (h : Is .program t) : ':' ∈ t.text := by
  obtain ⟨ds, e, hc, hne, hds, -⟩ := h.program
  obtain ⟨d, hd⟩ := List.exists_mem_of_ne_nil ds hne
  obtain ⟨r, hr, g, hg, hgr⟩ := (hds d hd).shape_one [.funcDecl, .varDecl] (by decide) rfl rfl
  have hcolon : .token [':'] ∈ g.parts := by
    have hk : r.kind ≠ .token := by
      simp only [List.mem_cons, List.not_mem_nil, or_false] at hr
      rcases hr with rfl | rfl <;> decide
    have hf := (hgr.fits hk).1
    have hmem : .token [':'] ∈ solid g.parts := by
      simp only [List.mem_cons, List.not_mem_nil, or_false] at hr
      rcases hr with rfl | rfl
      · obtain ⟨xs, ys, hs, -, hy⟩ := Peg.Fits.seq_iff.mp hf
        obtain ⟨zs, ws, rfl, hz, -⟩ := Peg.Fits.seq_iff.mp hy
        rw [hs, Peg.Fits.text_iff.mp hz]
        simp
      · obtain ⟨xs, ys, hs, -, hy⟩ := Peg.Fits.seq_iff.mp hf
        obtain ⟨zs, ws, rfl, hz, -⟩ := Peg.Fits.seq_iff.mp hy
        rw [hs, Peg.Fits.text_iff.mp hz]
        simp
    exact (List.mem_filter.mp hmem).1
  have hup : ∀ {u v : Tree}, u ∈ v.parts → ':' ∈ u.text → ':' ∈ v.text := by
    intro u v hu hmem
    cases v with
    | token | trivia => cases hu
    | node r' a b ps =>
      rw [text, textAll_eq_flatMap]
      exact List.mem_flatMap.mpr ⟨u, hu, hmem⟩
  have hpart : ∀ {u v : Tree}, u ∈ v.children → u ∈ v.parts := fun hu => (List.mem_filter.mp hu).1
  refine hup (hpart (u := d) (by simp [hc, hd])) (hup (hpart (u := g) (by simp [hg])) (hup hcolon ?_))
  simp [text]

/-- A failure to make a program of a tree is a fault of the tree. -/
theorem lower_error {t : Tree} {e : Failure} (h : lower t = .error e) :
    ∃ f, Program.ofTree t = .error f ∧ e = .faulty f := by
  rw [lower] at h
  cases hx : Program.ofTree t with
  | ok p => rw [hx] at h; cases h
  | error f =>
    rw [hx] at h
    exact ⟨f, rfl, (Except.error.inj h).symm⟩

/-- A script is accepted exactly if the rule of programs reads it. -/
theorem parse_eq_ok_iff {s : Script} {t : Tree} :
    s.parse = .ok t ↔ ∃ ts c, Peg.Matches .normal (.call .program) (.ofText s.source) ts c ∧
      nodes ts = [t] := by
  constructor
  · intro h
    rw [parse] at h
    split at h
    · cases h
    · rw [parseRule] at h
      cases hr : Rule.program.read s.source with
      | error w => rw [hr] at h; cases h
      | ok ts =>
        obtain ⟨c, hreads⟩ := Rule.read_eq_ok_iff.mp hr
        obtain ⟨t', hn, -⟩ := program_of_matches hreads
        rw [hr] at h
        have ht : t' = t := by
          simp only [hn] at h
          exact Except.ok.inj h
        exact ⟨ts, c, hreads, by rw [hn, ht]⟩
  · rintro ⟨ts, c, h, hn⟩
    have hr := Rule.read_eq_ok_iff.mpr ⟨c, h⟩
    obtain ⟨t', hn', ht⟩ := program_of_matches h
    obtain rfl : t' = t := by
      rw [hn] at hn'
      exact (List.cons.inj hn').1.symm
    have hblank : s.isEmpty = false := by
      have hcolon : ':' ∈ s.source := by
        have hmem : t' ∈ ts := (List.mem_filter.mp (show t' ∈ nodes ts by rw [hn]; simp)).1
        show ':' ∈ (Cursor.ofText s.source).rest
        rw [← h.textAll_rest, textAll_eq_flatMap]
        exact List.mem_append_left _ (List.mem_flatMap.mpr ⟨t', hmem, colon_mem_text ht⟩)
      rw [isEmpty, Text.allBlank, List.all_eq_false]
      exact ⟨':', hcolon, by decide⟩
    rw [parse, hblank, parseRule, hr]
    simp only [hn]
    rfl

/-- A script that is not accepted is blank or cannot be read: reading never leaves nothing. -/
theorem parse_cases (s : Script) : (∃ t, s.parse = .ok t) ∨
    (s.isEmpty = true ∧ s.parse = .error .empty) ∨ ∃ w, s.parse = .error (.unreadable w) := by
  rw [parse]
  cases hs : s.isEmpty with
  | true => exact .inr (.inl ⟨rfl, rfl⟩)
  | false =>
    rw [parseRule]
    cases hr : Rule.program.read s.source with
    | error w => exact .inr (.inr ⟨w, rfl⟩)
    | ok ts =>
      obtain ⟨c, hreads⟩ := Rule.read_eq_ok_iff.mp hr
      obtain ⟨t, hn, -⟩ := program_of_matches hreads
      exact .inl ⟨t, by simp only [hn]; rfl⟩

/-- The tree of an accepted script is a conforming program. -/
theorem is_of_parse {s : Script} {t : Tree} (h : s.parse = .ok t) : Is .program t := by
  obtain ⟨ts, c, hreads, hn⟩ := parse_eq_ok_iff.mp h
  obtain ⟨t', hn', ht⟩ := program_of_matches hreads
  rw [hn] at hn'
  exact (List.cons.inj hn').1 ▸ ht

/-- A script of whose program something can be computed has a program. -/
theorem exists_program {α : Type} {s : Script} {f : Program → α} {a : α}
    (h : s.program.toOption.map f = some a) : ∃ p, s.program = .ok p ∧ f p = a := by
  cases hp : s.program with
  | error e => rw [hp] at h; cases h
  | ok p =>
    rw [hp] at h
    exact ⟨p, rfl, Option.some.inj h⟩

/-- A script has a program exactly if it is accepted and the program is made of its tree. -/
theorem program_eq_ok_iff {s : Script} {p : Program} :
    s.program = .ok p ↔ ∃ t, s.parse = .ok t ∧ Program.ofTree t = .ok p := by
  rw [program]
  cases s.parse with
  | error e =>
    constructor
    · rintro ⟨⟩
    · rintro ⟨t, ⟨⟩, -⟩
  | ok t =>
    show lower t = .ok p ↔ _
    rw [lower]
    cases hq : Program.ofTree t with
    | error f =>
      constructor
      · rintro ⟨⟩
      · rintro ⟨u, hu, hp⟩
        rw [← Except.ok.inj hu, hq] at hp
        cases hp
    | ok q =>
      constructor
      · rintro ⟨⟩
        exact ⟨t, rfl, hq⟩
      · rintro ⟨u, hu, hp⟩
        rw [← Except.ok.inj hu, hq] at hp
        exact congrArg Except.ok (Except.ok.inj hp)

/-- A script has a fault exactly if it is accepted and its tree has the fault. -/
theorem program_eq_faulty_iff {s : Script} {f : Fault} :
    s.program = .error (.faulty f) ↔ ∃ t, s.parse = .ok t ∧ Program.ofTree t = .error f := by
  rw [program]
  rcases s.parse_cases with ⟨t, ht⟩ | ⟨-, he⟩ | ⟨w, he⟩
  · rw [ht]
    show lower t = _ ↔ _
    constructor
    · intro h
      obtain ⟨g, hg, heq⟩ := lower_error h
      exact ⟨t, rfl, by rw [hg, Failure.faulty.inj heq]⟩
    · rintro ⟨u, hu, hf⟩
      rw [lower, Except.ok.inj hu, hf]
      rfl
  · rw [he]
    exact iff_of_false (by rintro ⟨⟩) (by rintro ⟨t, ⟨⟩, -⟩)
  · rw [he]
    exact iff_of_false (by rintro ⟨⟩) (by rintro ⟨t, ⟨⟩, -⟩)

end Script

end Mt22
