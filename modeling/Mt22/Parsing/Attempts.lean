import Mt22.Grammar.Rule

/-!
# Attempts

While a text is read, the rules that failed furthest to the right are remembered; if the whole
text cannot be read, they are what was expected there.  A rule that fails replaces the failures
inside it, unless just one was remembered inside it at the same place: that one says more.
-/

namespace Mt22

/-- The furthest place at which a rule failed, and the rules that failed there, in the order in
which they were tried. -/
structure Attempts where
  offset : Nat
  rules : List Rule
deriving DecidableEq

namespace Attempts

/-- Nothing has been tried. -/
def none : Attempts := ⟨0, []⟩

/-- How many failures are remembered at an offset. -/
def countAt (w : Attempts) (offset : Nat) : Nat :=
  if w.offset = offset then w.rules.length else 0

/-- Remembers that a rule failed at an offset at which `earlier` failures had been remembered
when it was entered. -/
def note (w : Attempts) (r : Rule) (offset earlier : Nat) : Attempts :=
  if w.countAt offset = earlier + 1 then w
  else if w.offset = offset then ⟨offset, w.rules.take earlier ++ [r]⟩
  else if w.offset < offset then ⟨offset, [r]⟩
  else w

/-- The rules remembered, each once, in the order of the grammar. -/
def expected (w : Attempts) : List Rule := Rule.all.filter (· ∈ w.rules)

end Attempts

end Mt22
