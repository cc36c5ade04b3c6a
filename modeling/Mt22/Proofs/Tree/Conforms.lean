import Mt22.Proofs.Token.Class
import Mt22.Tree.Basic

/-!
# Trees that conform to the grammar

A tree conforms to the grammar if the parts of each of its nodes, trivia apart, can be had from
the body of its rule when the grammar is read as an ordinary one: an alternative may be any of a
choice, an item may be repeated any number of times, and a token is any text of its class.

* `Peg.Fits e ts`: an expression, read so, gives the trees `ts`.  This looks at no tree from the
  inside.
* `Tree.Conforms`: the parts of every node fit.
* `Tree.Is r t`: a conforming node of rule `r`.
-/

namespace Mt22

/-- The texts that a rule allows which is read as one token. -/
def Rule.Allows : Rule → List Char → Prop
  | .identifier, w => Token.isName w = true
  | .intLit, w => Token.isInteger w = true
  | .floatLit, w => Token.IsFloat w
  | .strBody, w => Token.isStringBody w = true
  | _, _ => False

namespace Tree

/-- The tree is a piece of trivia. -/
def isTrivia : Tree → Bool
  | trivia _ => true
  | _ => false

/-- Trees without the trivia between them. -/
def solid (ts : List Tree) : List Tree := ts.filter (!·.isTrivia)

@[simp] theorem solid_nil : solid [] = [] := rfl

@[simp] theorem solid_append (ts us : List Tree) : solid (ts ++ us) = solid ts ++ solid us :=
  List.filter_append ..

@[simp] theorem solid_cons_token (s : List Char) (ts : List Tree) :
    solid (token s :: ts) = token s :: solid ts := rfl

@[simp] theorem solid_cons_node (r : Rule) (a b : Nat) (ps ts : List Tree) :
    solid (node r a b ps :: ts) = node r a b ps :: solid ts := rfl

@[simp] theorem solid_solid (ts : List Tree) : solid (solid ts) = solid ts := by
  simp [solid]

@[simp] theorem nodes_nil : nodes [] = [] := rfl

@[simp] theorem nodes_append (ts us : List Tree) : nodes (ts ++ us) = nodes ts ++ nodes us :=
  List.filter_append ..

@[simp] theorem nodes_cons_token (s : List Char) (ts : List Tree) :
    nodes (token s :: ts) = nodes ts := rfl

theorem nodes_cons_of_rule {r : Rule} {t : Tree} (h : t.rule? = some r) (ts : List Tree) :
    nodes (t :: ts) = t :: nodes ts := by
  cases t with
  | token | trivia => cases h
  | node => rfl

theorem nodes_solid (ts : List Tree) : nodes (solid ts) = nodes ts := by
  rw [nodes, solid, List.filter_filter]
  refine List.filter_congr ?_
  intro t _
  cases t <;> rfl

theorem isNode_of_rule {r : Rule} {t : Tree} (h : t.rule? = some r) : t.isNode = true := by
  cases t with
  | token | trivia => cases h
  | node => rfl

end Tree

open Mt22.Tree

/-- The trees that an expression gives when the grammar is read as an ordinary one. -/
inductive Peg.Fits : Peg → List Tree → Prop
  | text (s : List Char) : Fits (.text s) [.token s]
  | start : Fits .start []
  | finish : Fits .finish []
  | call {r : Rule} {t : Tree} : t.rule? = some r → Fits (.call r) [t]
  | seq {a b : Peg} {ts us : List Tree} : Fits a ts → Fits b us → Fits (.seq a b) (ts ++ us)
  | left {a b : Peg} {ts : List Tree} : Fits a ts → Fits (.choice a b) ts
  | right {a b : Peg} {ts : List Tree} : Fits b ts → Fits (.choice a b) ts
  | without {a : Peg} : Fits (.opt a) []
  | within {a : Peg} {ts : List Tree} : Fits a ts → Fits (.opt a) ts
  | nil {a : Peg} : Fits (.star a) []
  | cons {a : Peg} {ts us : List Tree} : Fits a ts → Fits (.star a) us → Fits (.star a) (ts ++ us)
  | more {a : Peg} {ts : List Tree} : Fits (.star a) ts → Fits (.more a) ts
  | ahead {a : Peg} : Fits (.ahead a) []

namespace Peg.Fits

variable {a b : Peg} {ts : List Tree}

@[simp] theorem text_iff {s : List Char} : Fits (.text s) ts ↔ ts = [.token s] := by
  constructor
  · rintro ⟨⟩; rfl
  · rintro rfl; exact .text s

@[simp] theorem start_iff : Fits .start ts ↔ ts = [] := by
  constructor
  · rintro ⟨⟩; rfl
  · rintro rfl; exact .start

@[simp] theorem finish_iff : Fits .finish ts ↔ ts = [] := by
  constructor
  · rintro ⟨⟩; rfl
  · rintro rfl; exact .finish

@[simp] theorem ahead_iff : Fits (.ahead a) ts ↔ ts = [] := by
  constructor
  · rintro ⟨⟩; rfl
  · rintro rfl; exact .ahead

@[simp] theorem call_iff {r : Rule} :
    Fits (.call r) ts ↔ ∃ t, ts = [t] ∧ t.rule? = some r := by
  constructor
  · rintro (_ | _ | _ | h); exact ⟨_, rfl, h⟩
  · rintro ⟨t, rfl, h⟩; exact .call h

@[simp] theorem seq_iff :
    Fits (.seq a b) ts ↔ ∃ xs ys, ts = xs ++ ys ∧ Fits a xs ∧ Fits b ys := by
  constructor
  · intro h
    cases h with
    | seq ha hb => exact ⟨_, _, rfl, ha, hb⟩
  · rintro ⟨xs, ys, rfl, ha, hb⟩; exact .seq ha hb

@[simp] theorem choice_iff : Fits (.choice a b) ts ↔ Fits a ts ∨ Fits b ts := by
  constructor
  · intro h
    cases h with
    | left ha => exact .inl ha
    | right hb => exact .inr hb
  · rintro (ha | hb)
    · exact .left ha
    · exact .right hb

@[simp] theorem opt_iff : Fits (.opt a) ts ↔ ts = [] ∨ Fits a ts := by
  constructor
  · intro h
    cases h with
    | without => exact .inl rfl
    | within ha => exact .inr ha
  · rintro (rfl | ha)
    · exact .without
    · exact .within ha

theorem word_iff {w : String} : Fits (word w) ts ↔ ts = [.token w.toList] := by
  simp [word]

/-- A sequence of which the first item gives one tree. -/
theorem item {t : Tree} (ha : Fits a [t]) (hb : Fits b ts) : Fits (.seq a b) (t :: ts) := .seq ha hb

end Peg.Fits

/-- An expression that is one item, with no place for trivia. -/
def Peg.isSingle : Peg → Bool
  | text _ | call _ => true
  | choice a b => a.isSingle && b.isSingle
  | _ => false

/-- A rule whose nodes have no trivia among their parts. -/
def Rule.isTight (r : Rule) : Bool := r.kind = .compound || r.body.isSingle

/-- A tree that conforms to the grammar. -/
inductive Tree.Conforms : Tree → Prop
  | token {r : Rule} {a b : Nat} {w : List Char} (h : r.Allows w) : Conforms (.node r a b [.token w])
  | node {r : Rule} {a b : Nat} {ps : List Tree} (kind : r.kind = .plain ∨ r.kind = .compound)
      (tight : r.isTight = true → solid ps = ps) (fits : r.body.Fits (solid ps))
      (parts : ∀ t ∈ ps, t.isNode = true → Conforms t) : Conforms (.node r a b ps)

/-- A conforming node of a rule. -/
structure Tree.Is (r : Rule) (t : Tree) : Prop where
  rule : t.rule? = some r
  conforms : t.Conforms

namespace Tree

theorem kind_of_allows {r : Rule} {w : List Char} (h : r.Allows w) : r.kind = .token := by
  cases r <;> first | rfl | exact False.elim h

/-- The parts of a node of a rule that is no token fit its body, and its children conform. -/
theorem Is.fits {r : Rule} {t : Tree} (h : Is r t) (hk : r.kind ≠ .token) :
    r.body.Fits (solid t.parts) ∧ ∀ c ∈ t.parts, c.isNode = true → c.Conforms := by
  obtain ⟨hr, hc⟩ := h
  cases hc with
  | token ha =>
    obtain rfl := Option.some.inj hr
    exact absurd (kind_of_allows ha) hk
  | node _ _ hf hp =>
    obtain rfl := Option.some.inj hr
    exact ⟨hf, hp⟩

theorem Is.tight {r : Rule} {t : Tree} (h : Is r t) (hr : r.isTight = true) :
    solid t.parts = t.parts := by
  obtain ⟨hrule, hc⟩ := h
  cases hc with
  | token => rfl
  | node _ ht _ _ =>
    obtain rfl := Option.some.inj hrule
    exact ht hr

/-- A node of a rule that is a token has one text of its class. -/
theorem Is.token {r : Rule} {t : Tree} (h : Is r t) (hk : r.kind = .token) :
    ∃ a b w, t = .node r a b [.token w] ∧ r.Allows w := by
  obtain ⟨hr, hc⟩ := h
  cases hc with
  | token ha =>
    obtain rfl := Option.some.inj hr
    exact ⟨_, _, _, rfl, ha⟩
  | node hkind _ _ _ =>
    obtain rfl := Option.some.inj hr
    rw [hk] at hkind
    rcases hkind with h | h <;> cases h

/-- The text of a token is of its class. -/
theorem Is.allows_text {r : Rule} {t : Tree} (h : Is r t) (hk : r.kind = .token) :
    r.Allows t.text := by
  obtain ⟨a, b, w, rfl, hw⟩ := h.token hk
  rwa [text, textAll, text, textAll, List.append_nil]

theorem Is.of_conforms {r : Rule} {a b : Nat} {ps : List Tree} (h : (node r a b ps).Conforms) :
    Is r (node r a b ps) := ⟨rfl, h⟩

end Tree

end Mt22
