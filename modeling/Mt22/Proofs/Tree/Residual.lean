import Mathlib.Data.List.Induction
import Mt22.Proofs.Parsing.Sound

/-!
# The children that may come next

An expression of the grammar says which nodes may stand side by side (`Peg.Admits`).  Here it is read
from the left: `Peg.step` gives what can be left of an expression after one node, and `Peg.after` what
is left after several.  Nodes can be completed to some that are admitted exactly if something is left
(`Peg.exists_admits_append`), and so the first node that is out of place is found where nothing is left
(`Peg.Breaks`).
-/

namespace Mt22

open Mt22.Tree

namespace Peg

variable {a b e : Peg} {c : Tree} {cs rest : List Tree} {q : Rule} {S : List Peg} {X : List Rule}

/-- Nodes that fit an expression, with tokens between them. -/
def Admits (e : Peg) (cs : List Tree) : Prop := ∃ ts, nodes ts = cs ∧ e.Fits ts

/-- The nodes `done` can be completed to nodes that are admitted, but not by any that begin as `left`
does. -/
def Breaks (e : Peg) (done left : List Tree) : Prop :=
  (∃ rest, e.Admits (done ++ rest)) ∧
    ∀ rest, rest.head? = left.head? → ¬ e.Admits (done ++ rest)

/-- The expression fits without any node. -/
def isBare : Peg → Bool
  | text _ | start | finish | ahead _ | opt _ | star _ | more _ => true
  | one _ | absent _ | call _ => false
  | seq a b => a.isBare && b.isBare
  | choice a b => a.isBare || b.isBare

/-- One expression and then another.  Of the first nothing is kept if nothing is left of it, so that a
repetition comes back to itself. -/
def andThen : Peg → Peg → Peg
  | start, b => b
  | a, b => seq a b

/-- What can be left of an expression after a node of a rule. -/
def step : Peg → Rule → List Peg
  | call r, q => if r = q then [start] else []
  | seq a b, q => (a.step q).map (·.andThen b) ++ if a.isBare then b.step q else []
  | choice a b, q => a.step q ++ b.step q
  | opt a, q => a.step q
  | star a, q | more a, q => (a.step q).map (·.andThen (star a))
  | text _, _ | one _, _ | start, _ | finish, _ | ahead _, _ | absent _, _ => []

/-! ### One node -/

theorem admits_seq :
    (seq a b).Admits cs ↔ ∃ xs ys, cs = xs ++ ys ∧ a.Admits xs ∧ b.Admits ys := by
  constructor
  · rintro ⟨ts, rfl, hts⟩
    obtain ⟨us, vs, rfl, hus, hvs⟩ := Fits.seq_iff.mp hts
    exact ⟨_, _, nodes_append us vs, ⟨us, rfl, hus⟩, ⟨vs, rfl, hvs⟩⟩
  · rintro ⟨_, _, rfl, ⟨us, rfl, hus⟩, ⟨vs, rfl, hvs⟩⟩
    exact ⟨us ++ vs, nodes_append us vs, .seq hus hvs⟩

theorem admits_choice : (choice a b).Admits cs ↔ a.Admits cs ∨ b.Admits cs := by
  simp only [Admits, Fits.choice_iff, and_or_left, exists_or]

theorem admits_opt : (opt a).Admits cs ↔ cs = [] ∨ a.Admits cs := by
  simp only [Admits, Fits.opt_iff, and_or_left, exists_or]
  refine or_congr_left ⟨?_, ?_⟩
  · rintro ⟨ts, rfl, rfl⟩
    rfl
  · rintro rfl
    exact ⟨[], rfl, rfl⟩

theorem admits_more : (more a).Admits cs ↔ (star a).Admits cs := by
  constructor
  · rintro ⟨ts, hts, h⟩
    cases h with
    | more h => exact ⟨ts, hts, h⟩
  · rintro ⟨ts, hts, h⟩
    exact ⟨ts, hts, .more h⟩

theorem admits_start : start.Admits cs ↔ cs = [] := by
  constructor
  · rintro ⟨ts, rfl, hts⟩
    rw [Fits.start_iff.mp hts, nodes_nil]
  · rintro rfl
    exact ⟨[], rfl, .start⟩

theorem admits_andThen :
    (a.andThen b).Admits cs ↔ ∃ xs ys, cs = xs ++ ys ∧ a.Admits xs ∧ b.Admits ys := by
  cases a with
  | start =>
    simp only [andThen, admits_start]
    constructor
    · intro h
      exact ⟨[], cs, rfl, rfl, h⟩
    · rintro ⟨xs, ys, rfl, rfl, h⟩
      exact h
  | _ => exact admits_seq

theorem admits_call : (call q).Admits cs ↔ ∃ c, cs = [c] ∧ c.rule? = some q := by
  constructor
  · rintro ⟨ts, rfl, hts⟩
    obtain ⟨c, rfl, hc⟩ := Fits.call_iff.mp hts
    exact ⟨c, by rw [nodes_cons_of_rule hc, nodes_nil], hc⟩
  · rintro ⟨c, rfl, hc⟩
    exact ⟨[c], by rw [nodes_cons_of_rule hc, nodes_nil], .call hc⟩

/-- Items without nodes can be passed over until one has the first node. -/
theorem admits_star_cons : (star a).Admits (c :: cs) ↔
    ∃ xs ys, cs = xs ++ ys ∧ a.Admits (c :: xs) ∧ (star a).Admits ys := by
  constructor
  · rintro ⟨ts, hts, h⟩
    generalize he : star a = e at h
    induction h with
    | nil => cases hts
    | @cons _ us vs hus hvs _ ih =>
      cases he
      rw [nodes_append] at hts
      cases hnodes : nodes us with
      | nil =>
        rw [hnodes] at hts
        exact ih hts rfl
      | cons d xs =>
        rw [hnodes] at hts
        obtain ⟨rfl, rfl⟩ := List.cons.inj hts
        exact ⟨xs, nodes vs, rfl, ⟨us, hnodes, hus⟩, ⟨vs, rfl, hvs⟩⟩
    | _ => cases he
  · rintro ⟨xs, ys, rfl, ⟨us, hus, hfits⟩, ⟨vs, rfl, hrest⟩⟩
    exact ⟨us ++ vs, by rw [nodes_append, hus]; rfl, .cons hfits hrest⟩

theorem admits_nil_iff (e : Peg) : e.Admits [] ↔ e.isBare = true := by
  induction e with
  | text s => exact iff_of_true ⟨[.token s], rfl, .text s⟩ rfl
  | start => exact iff_of_true ⟨[], rfl, .start⟩ rfl
  | finish => exact iff_of_true ⟨[], rfl, .finish⟩ rfl
  | ahead => exact iff_of_true ⟨[], rfl, .ahead⟩ rfl
  | star => exact iff_of_true ⟨[], rfl, .nil⟩ rfl
  | more => exact iff_of_true ⟨[], rfl, .more .nil⟩ rfl
  | opt => exact iff_of_true ⟨[], rfl, .without⟩ rfl
  | one | absent => exact iff_of_false (by rintro ⟨ts, -, ⟨⟩⟩) Bool.false_ne_true
  | call r => exact iff_of_false (by simp [admits_call]) Bool.false_ne_true
  | choice a b iha ihb => rw [admits_choice, iha, ihb, isBare, Bool.or_eq_true]
  | seq a b iha ihb =>
    rw [admits_seq, isBare, Bool.and_eq_true, ← iha, ← ihb]
    constructor
    · rintro ⟨xs, ys, h, hx, hy⟩
      obtain ⟨rfl, rfl⟩ := List.append_eq_nil_iff.mp h.symm
      exact ⟨hx, hy⟩
    · rintro ⟨hx, hy⟩
      exact ⟨[], [], rfl, hx, hy⟩

/-- An expression of which no node is left over has no step. -/
theorem not_admits_cons (h : ∀ ts, e.Fits ts → nodes ts = []) : ¬ e.Admits (c :: cs) := by
  rintro ⟨ts, hts, hfits⟩
  rw [h ts hfits] at hts
  cases hts

/-- The first node of a sequence is in its first part, unless this has none. -/
theorem admits_seq_cons : (seq a b).Admits (c :: cs) ↔
    (∃ xs ys, cs = xs ++ ys ∧ a.Admits (c :: xs) ∧ b.Admits ys) ∨
      a.isBare = true ∧ b.Admits (c :: cs) := by
  rw [admits_seq, ← admits_nil_iff]
  constructor
  · rintro ⟨xs, ys, h, hx, hy⟩
    cases xs with
    | nil =>
      obtain rfl : c :: cs = ys := h
      exact .inr ⟨hx, hy⟩
    | cons d xs =>
      obtain ⟨rfl, rfl⟩ := List.cons.inj h
      exact .inl ⟨xs, ys, rfl, hx, hy⟩
  · rintro (⟨xs, ys, rfl, hx, hy⟩ | ⟨hx, hy⟩)
    · exact ⟨c :: xs, ys, rfl, hx, hy⟩
    · exact ⟨[], c :: cs, rfl, hx, hy⟩

/-- A step into the first part of a sequence. -/
theorem exists_step_andThen (ih : ∀ {xs}, a.Admits (c :: xs) ↔ ∃ x ∈ a.step q, x.Admits xs) :
    (∃ x ∈ (a.step q).map (·.andThen b), x.Admits cs) ↔
      ∃ xs ys, cs = xs ++ ys ∧ a.Admits (c :: xs) ∧ b.Admits ys := by
  constructor
  · rintro ⟨y, hy, hadmits⟩
    obtain ⟨x, hmem, rfl⟩ := List.mem_map.mp hy
    obtain ⟨xs, ys, h, hxs, hys⟩ := admits_andThen.mp hadmits
    exact ⟨xs, ys, h, ih.mpr ⟨x, hmem, hxs⟩, hys⟩
  · rintro ⟨xs, ys, h, hxs, hys⟩
    obtain ⟨x, hmem, hxs⟩ := ih.mp hxs
    exact ⟨_, List.mem_map_of_mem hmem, admits_andThen.mpr ⟨xs, ys, h, hxs, hys⟩⟩

/-- **A step takes one node off those that are admitted.** -/
theorem admits_cons_iff (hc : c.rule? = some q) :
    e.Admits (c :: cs) ↔ ∃ x ∈ e.step q, x.Admits cs := by
  induction e generalizing cs with
  | text s => simpa [step] using not_admits_cons (by simp)
  | start => simpa [step] using not_admits_cons (by simp)
  | finish => simpa [step] using not_admits_cons (by simp)
  | ahead => simpa [step] using not_admits_cons (by simp)
  | one | absent => simpa [step] using not_admits_cons (by rintro ts ⟨⟩)
  | call r =>
    rw [admits_call, step]
    by_cases hr : r = q
    · subst hr
      rw [if_pos rfl]
      simp only [List.mem_singleton, exists_eq_left, admits_start]
      constructor
      · rintro ⟨d, hd, -⟩
        exact (List.cons.inj hd).2
      · rintro rfl
        exact ⟨c, rfl, hc⟩
    · rw [if_neg hr]
      refine iff_of_false ?_ (by simp)
      rintro ⟨d, hd, hdr⟩
      obtain ⟨rfl, -⟩ := List.cons.inj hd
      exact hr (Option.some.inj (hdr.symm.trans hc))
  | choice a b iha ihb =>
    simp only [admits_choice, iha, ihb, step, List.mem_append, or_and_right, exists_or]
  | opt a ih => rw [admits_opt, ih, step, or_iff_right (List.cons_ne_nil c cs)]
  | seq a b iha ihb =>
    simp only [admits_seq_cons, step, List.mem_append, or_and_right, exists_or,
      exists_step_andThen iha]
    refine or_congr_right ?_
    rw [ihb]
    split
    · next h => simp only [h, true_and]
    · next h => simp [h]
  | star a ih => rw [admits_star_cons, step, exists_step_andThen ih]
  | more a ih => rw [admits_more, admits_star_cons, step, exists_step_andThen ih]

/-! ### Several nodes -/

/-- What can be left of some expressions after a node of a rule. -/
def advance (S : List Peg) (q : Rule) : List Peg := S.flatMap (·.step q)

/-- What can be left of some expressions after several nodes. -/
def after (S : List Peg) (cs : List Tree) : List Peg :=
  cs.foldl (fun S c => c.rule?.elim [] (advance S)) S

theorem after_append (S : List Peg) (cs ds : List Tree) : after S (cs ++ ds) = after (after S cs) ds :=
  List.foldl_append

theorem after_singleton (hc : c.rule? = some q) : after S [c] = advance S q := by
  rw [after, List.foldl_cons, List.foldl_nil, hc, Option.elim_some]

/-- One of some expressions admits nodes. -/
def AdmitsAny (S : List Peg) (cs : List Tree) : Prop := ∃ e ∈ S, e.Admits cs

theorem admitsAny_singleton : AdmitsAny [e] cs ↔ e.Admits cs := by simp [AdmitsAny]

theorem admitsAny_nil_iff : AdmitsAny S [] ↔ ∃ e ∈ S, e.isBare = true := by
  simp only [AdmitsAny, admits_nil_iff]

theorem admitsAny_cons_iff (hc : c.rule? = some q) :
    AdmitsAny S (c :: cs) ↔ AdmitsAny (advance S q) cs := by
  constructor
  · rintro ⟨e, he, h⟩
    obtain ⟨x, hx, h⟩ := (admits_cons_iff hc).mp h
    exact ⟨x, List.mem_flatMap.mpr ⟨e, he, hx⟩, h⟩
  · rintro ⟨x, hx, h⟩
    obtain ⟨e, he, hx⟩ := List.mem_flatMap.mp hx
    exact ⟨e, he, (admits_cons_iff hc).mpr ⟨x, hx, h⟩⟩

/-- What is left cannot end. -/
theorem not_admitsAny_of_none (hS : ∀ e ∈ S, e.isBare = false) (hrest : rest.head? = none) :
    ¬ AdmitsAny S rest := by
  rw [List.head?_eq_none_iff.mp hrest, admitsAny_nil_iff]
  rintro ⟨e, he, hbare⟩
  rw [hS e he] at hbare
  cases hbare

/-- What is left cannot go on with a node. -/
theorem not_admitsAny_of_some (hc : c.rule? = some q) (hS : advance S q = [])
    (hrest : rest.head? = some c) : ¬ AdmitsAny S rest := by
  obtain ⟨rest, rfl⟩ := List.head?_eq_some_iff.mp hrest
  rw [admitsAny_cons_iff hc, hS]
  rintro ⟨e, he, -⟩
  cases he

/-- What is left after some nodes admits those that can follow them. -/
theorem admitsAny_append_iff {done : List Tree} (hdone : ∀ c ∈ done, c.isNode = true) :
    AdmitsAny S (done ++ rest) ↔ AdmitsAny (after S done) rest := by
  induction done generalizing S with
  | nil => rfl
  | cons c done ih =>
    obtain ⟨hc, hdone⟩ := List.forall_mem_cons.mp hdone
    obtain ⟨q, hq⟩ : ∃ q, c.rule? = some q := by
      cases c with
      | token | trivia => cases hc
      | node r => exact ⟨r, rfl⟩
    have hafter : after S (c :: done) = after (advance S q) done := by
      rw [← List.singleton_append, after_append, after_singleton hq]
    rw [List.cons_append, admitsAny_cons_iff hq, ih hdone, hafter]

/-- Nodes of one rule, where what is left is the same after each of them. -/
theorem admitsAny_of_loop (hloop : advance (advance S q) q = advance S q)
    (hS : ∃ e ∈ S, e.isBare = true) (hnext : ∃ e ∈ advance S q, e.isBare = true)
    (hcs : ∀ c ∈ cs, c.rule? = some q) : AdmitsAny S cs := by
  induction cs generalizing S with
  | nil => exact admitsAny_nil_iff.mpr hS
  | cons c cs ih =>
    obtain ⟨hc, hcs⟩ := List.forall_mem_cons.mp hcs
    rw [admitsAny_cons_iff hc]
    exact ih (by rw [hloop, hloop]) hnext (by rw [hloop]; exact hnext) hcs

/-! ### What can be completed -/

theorem isSyntax_andThen (ha : a.isSyntax = true) (hb : b.isSyntax = true) :
    (a.andThen b).isSyntax = true := by
  cases a with
  | start => exact hb
  | _ => exact Bool.and_eq_true_iff.mpr ⟨ha, hb⟩

theorem isSyntax_step (he : e.isSyntax = true) : ∀ x ∈ e.step q, x.isSyntax = true := by
  induction e with
  | call r =>
    intro x hx
    rw [step] at hx
    split at hx
    · rw [List.mem_singleton.mp hx, isSyntax]
    · cases hx
  | choice a b iha ihb =>
    obtain ⟨ha, hb⟩ := Bool.and_eq_true_iff.mp he
    exact List.forall_mem_append.mpr ⟨iha ha, ihb hb⟩
  | seq a b iha ihb =>
    obtain ⟨ha, hb⟩ := Bool.and_eq_true_iff.mp he
    refine List.forall_mem_append.mpr ⟨List.forall_mem_map.mpr fun x hx => ?_, ?_⟩
    · exact isSyntax_andThen (iha ha x hx) hb
    · split
      · exact ihb hb
      · simp
  | opt a ih => exact ih he
  | star a ih | more a ih => exact List.forall_mem_map.mpr fun x hx => isSyntax_andThen (ih he x hx) he
  | text | one | start | finish | ahead | absent => simp [step]

theorem isSyntax_after (hS : ∀ e ∈ S, e.isSyntax = true) (cs : List Tree) :
    ∀ e ∈ after S cs, e.isSyntax = true := by
  induction cs generalizing S with
  | nil => exact hS
  | cons c cs ih =>
    refine ih (S := c.rule?.elim [] (advance S)) ?_
    cases c.rule? with
    | none => simp
    | some q =>
      intro x hx
      obtain ⟨e, he, hx⟩ := List.mem_flatMap.mp hx
      exact isSyntax_step (hS e he) x hx

/-- Whatever is left can be completed. -/
theorem exists_admits (he : e.isSyntax = true) : ∃ cs, e.Admits cs := by
  induction e with
  | text | start | finish | ahead | opt | star | more => exact ⟨[], (admits_nil_iff _).mpr rfl⟩
  | one | absent => cases he
  | call r => exact ⟨[.node r 0 0 []], admits_call.mpr ⟨_, rfl, rfl⟩⟩
  | seq a b iha ihb =>
    obtain ⟨ha, hb⟩ := Bool.and_eq_true_iff.mp he
    obtain ⟨xs, hxs⟩ := iha ha
    obtain ⟨ys, hys⟩ := ihb hb
    exact ⟨xs ++ ys, admits_seq.mpr ⟨xs, ys, rfl, hxs, hys⟩⟩
  | choice a b iha =>
    obtain ⟨xs, hxs⟩ := iha (Bool.and_eq_true_iff.mp he).1
    exact ⟨xs, admits_choice.mpr (.inl hxs)⟩

/-- **Nodes can be completed exactly if something is left after them.** -/
theorem exists_admits_append {done : List Tree} (he : e.isSyntax = true)
    (hdone : ∀ c ∈ done, c.isNode = true) :
    (∃ rest, e.Admits (done ++ rest)) ↔ after [e] done ≠ [] := by
  simp only [← admitsAny_singleton, admitsAny_append_iff hdone]
  constructor
  · rintro ⟨rest, x, hx, -⟩
    exact List.ne_nil_of_mem hx
  · intro hne
    obtain ⟨x, xs, hx⟩ := List.exists_cons_of_ne_nil hne
    have hmem : x ∈ after [e] done := by simp [hx]
    obtain ⟨rest, hrest⟩ := exists_admits (isSyntax_after (by simpa using he) done x hmem)
    exact ⟨rest, x, hmem, hrest⟩

/-! ### Where nodes are out of place -/

/-- Nodes that are not admitted have a first that is out of place, or one is missing at their end. -/
theorem exists_breaks (he : e.isSyntax = true) (h : ¬ e.Admits cs) :
    ∃ done left, cs = done ++ left ∧ e.Breaks done left := by
  by_cases hcs : ∃ rest, e.Admits (cs ++ rest)
  · refine ⟨cs, [], (List.append_nil cs).symm, hcs, ?_⟩
    intro rest hrest
    rw [List.head?_eq_none_iff.mp hrest, List.append_nil]
    exact h
  · -- the longest part that can be completed
    clear h
    induction cs using List.reverseRecOn with
    | nil => exact absurd (exists_admits he) hcs
    | append_singleton cs c ih =>
      by_cases hinit : ∃ rest, e.Admits (cs ++ rest)
      · refine ⟨cs, [c], rfl, hinit, ?_⟩
        intro rest hrest hadmits
        obtain ⟨rest, rfl⟩ := List.head?_eq_some_iff.mp hrest
        exact hcs ⟨rest, by simpa using hadmits⟩
      · obtain ⟨done, left, rfl, hviable, hstuck⟩ := ih hinit
        refine ⟨done, left ++ [c], List.append_assoc .., hviable, ?_⟩
        intro rest hrest hadmits
        cases left with
        | nil => exact hinit (by simpa using hviable)
        | cons d left => exact hstuck rest hrest hadmits

theorem Breaks.not_admits {done left : List Tree} (h : e.Breaks done left) :
    ¬ e.Admits (done ++ left) := h.2 left rfl

end Peg

end Mt22
