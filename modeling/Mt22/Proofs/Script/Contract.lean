import Mathlib.Algebra.Group.Nat.Defs
import Mt22.Proofs.Program.Blame
import Mt22.Proofs.Script.Accept

/-!
# From an accepted script to its program

The grammar and the making of programs agree on the shape of trees: for an accepted script, only
the size of an integer, the size of a dimension or the number of initializers can be at fault.
-/

namespace Mt22

open Mt22.Tree

/-- All numbers of a tree fit where they stand, and every variable group with values has as many
of them as names. -/
structure Tree.Representable (t : Tree) : Prop where
  integers : ∀ l i : Tree, l.Within t → l.rule? = some .literal → i ∈ l.children →
    i.rule? = some .intLit → i.denoted ≤ 2 ^ 63 - 1
  dimensions : ∀ d i : Tree, d.Within t → d.rule? = some .dimensions → i ∈ d.children →
    i.rule? = some .intLit → i.denoted ≤ 2 ^ 64 - 1
  counts : ∀ v ns vs : Tree, v.Within t → v.rule? = some .varDecl → ns ∈ v.children →
    ns.rule? = some .nameList → vs ∈ v.children → vs.rule? = some .initializers →
    vs.children.length = ns.children.length

theorem Tree.representable_iff {t : Tree} : t.Representable ↔ ∀ f, ¬ t.Has f := by
  constructor
  · rintro h f ⟨u, hu, hf⟩
    cases hf with
    | integer ht hi hr hv =>
      have := h.integers u _ hu ht hi hr
      simp only [Number.signedLimit] at hv
      omega
    | dimension ht hi hr hv =>
      have := h.dimensions u _ hu ht hi hr
      simp only [Number.unsignedLimit] at hv
      omega
    | count ht hns hn hvs hv hne => exact hne (h.counts u _ _ hu ht hns hn hvs hv)
  · intro h
    refine ⟨?_, ?_, ?_⟩
    · intro l i hl ht hi hr
      have : ¬ Number.signedLimit ≤ i.denoted := fun hv => h _ ⟨l, hl, .integer ht hi hr hv⟩
      simp only [Number.signedLimit] at this
      omega
    · intro d i hd ht hi hr
      have : ¬ Number.unsignedLimit ≤ i.denoted := fun hv => h _ ⟨d, hd, .dimension ht hi hr hv⟩
      simp only [Number.unsignedLimit] at this
      omega
    · intro v ns vs hv ht hns hn hvs hr
      by_contra hne
      exact h _ ⟨v, hv, .count ht hns hn hvs hr hne⟩

/-- The value of a literal is out of range, or the number of initializers is wrong. -/
def Fault.isOfValue : Fault → Bool
  | integerRange _ | dimensionRange _ | initializerCount .. => true
  | shape .. | notANumber _ => false

theorem Tree.Has.isOfValue {t : Tree} {f : Fault} (h : t.Has f) : f.isOfValue = true := by
  obtain ⟨u, -, hf⟩ := h
  cases hf <;> rfl

theorem Fault.level_of_isOfValue {f : Fault} (h : f.isOfValue = true) : f.level = .error := by
  cases f with
  | shape | notANumber => cases h
  | integerRange | dimensionRange | initializerCount => rfl

namespace Script

/-- **The contract between reading and making a program.**  For an accepted script a program is
made exactly if its numbers fit and its initializers are as many as its names.  Otherwise the fault
is one of these, found in the tree, and not a critical one. -/
theorem program_of_accepted (s : Script) (t : Tree) (h : s.parse = .ok t) :
    ((∃ p, Program.ofTree t = .ok p) ↔ t.Representable) ∧
      ∀ f, Program.ofTree t = .error f → f.isOfValue = true ∧ f.level = .error ∧ t.Has f := by
  have ht := is_of_parse h
  have hx : Blames (Program.ofTree t) t.Has := ht.conforms.settled ht.rule
  refine ⟨hx.isOk_iff.trans representable_iff.symm, ?_⟩
  intro f hf
  rw [hf] at hx
  have hhas : t.Has f := hx
  exact ⟨hhas.isOfValue, Fault.level_of_isOfValue hhas.isOfValue, hhas⟩

/-- The first integer that does not fit is found by making the program, not by reading. -/
theorem program_of_accepted_limit : ∃ t,
    (Script.ofSource "limit" "x: integer = 9223372036854775808;").parse = .ok t ∧
      ((∃ p, Program.ofTree t = .ok p) ↔ t.Representable) ∧
      ∀ f, Program.ofTree t = .error f → f.isOfValue = true ∧ f.level = .error ∧ t.Has f := by
  have hok : (Script.ofSource "limit" "x: integer = 9223372036854775808;").parse.isOk = true := by
    decide +kernel
  cases h : (Script.ofSource "limit" "x: integer = 9223372036854775808;").parse with
  | error e => rw [h] at hok; cases hok
  | ok t => exact ⟨t, rfl, program_of_accepted _ t h⟩

end Script

end Mt22
