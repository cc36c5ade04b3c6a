import Mt22.Proofs.Token.Reading

/-!
# Texts that part in one way

A text that is put together from written values can be taken apart in one way only if each value
`Parts` from every other: whatever may follow them, equal texts come from equal values with equal
texts after them.

A run of characters ends where its class does (`append_inj_of_stops`), a mark is known by being no
start of another mark (`append_inj_of_prefix`), and a list between a bracket and its separators is
taken apart item by item (`separated_inj`).
-/

namespace Mt22.Text

open Token

variable {u v x y : List Char}

/-- A run of a class of characters, and something that does not go on with it. -/
theorem append_inj_of_stops {p : Char → Bool} (hu : u.all p = true) (hv : v.all p = true)
    (hx : Stops p x) (hy : Stops p y) (h : u ++ x = v ++ y) : u = v ∧ x = y := by
  obtain ⟨htake, hdrop⟩ := takeWhile_append_of_stops hu hx
  obtain ⟨htake', hdrop'⟩ := takeWhile_append_of_stops hv hy
  rw [h] at htake hdrop
  exact ⟨htake.symm.trans htake', hdrop.symm.trans hdrop'⟩

/-- Two marks, neither of which is the start of the other unless they are the same. -/
theorem append_inj_of_prefix (huv : u <+: v → u = v) (hvu : v <+: u → v = u)
    (h : u ++ x = v ++ y) : u = v ∧ x = y := by
  have heq : u = v := by
    rcases List.prefix_or_prefix_of_prefix (List.prefix_append u x)
      (h ▸ List.prefix_append v y) with hp | hp
    · exact huv hp
    · exact (hvu hp).symm
  subst heq
  exact ⟨rfl, List.append_cancel_left h⟩

/-- Whatever follows them, if only it may follow, the texts of `a` and `b` tell them apart. -/
def Parts {α : Type} (follows : List Char → Prop) (write : α → List Char) (a b : α) : Prop :=
  ∀ x y, follows x → follows y → write a ++ x = write b ++ y → a = b ∧ x = y

theorem intercalate_cons (sep w : List Char) (ws : List (List Char)) :
    sep.intercalate (w :: ws) = w ++ ws.flatMap (sep ++ ·) := by
  induction ws generalizing w with
  | nil => rw [List.intercalate_singleton, List.flatMap_nil, List.append_nil]
  | cons w' ws ih =>
    rw [List.intercalate_cons_cons, ih w', List.flatMap_cons, List.append_assoc, List.append_assoc]

/-! ### Lists -/

section Separated

variable {α : Type} {follows : List Char → Prop} {write : α → List Char} {sep : List Char}
  {close : Char} {as bs : List α}

/-- The items after the first, each with a separator before it, and the closing bracket. -/
def rest (write : α → List Char) (sep : List Char) (close : Char) (as : List α) (x : List Char) :
    List Char :=
  (as.map write).flatMap ((',' :: sep) ++ ·) ++ close :: x

theorem follows_rest (hsep : ∀ s, follows (',' :: s)) (hclose : ∀ s, follows (close :: s))
    (as : List α) (x : List Char) : follows (rest write sep close as x) := by
  cases as with
  | nil => exact hclose x
  | cons a as => exact hsep _

theorem rest_inj (hsep : ∀ s, follows (',' :: s)) (hclose : ∀ s, follows (close :: s))
    (hne : ',' ≠ close) (h : ∀ a ∈ as, ∀ b ∈ bs, Parts follows write a b)
    (heq : rest write sep close as x = rest write sep close bs y) : as = bs ∧ x = y := by
  induction as generalizing bs with
  | nil =>
    cases bs with
    | nil => exact ⟨rfl, (List.cons.inj heq).2⟩
    | cons b bs => exact absurd (List.cons.inj heq).1.symm hne
  | cons a as ih =>
    cases bs with
    | nil => exact absurd (List.cons.inj heq).1 hne
    | cons b bs =>
      simp only [rest, List.map_cons, List.flatMap_cons, List.append_assoc,
        List.append_cancel_left_eq] at heq
      obtain ⟨rfl, htail⟩ := h a (by simp) b (by simp) _ _ (follows_rest hsep hclose as x)
        (follows_rest hsep hclose bs y) heq
      obtain ⟨rfl, hxy⟩ := ih (fun a ha b hb => h a (by simp [ha]) b (by simp [hb])) htail
      exact ⟨rfl, hxy⟩

/-- **A separated list up to its closing bracket is taken apart item by item.**  No item may look
like the end of an empty list. -/
theorem separated_inj (hsep : ∀ s, follows (',' :: s)) (hclose : ∀ s, follows (close :: s))
    (hne : ',' ≠ close) (has : ∀ a ∈ as, ∀ s t, write a ++ s ≠ close :: t)
    (hbs : ∀ b ∈ bs, ∀ s t, write b ++ s ≠ close :: t)
    (h : ∀ a ∈ as, ∀ b ∈ bs, Parts follows write a b)
    (heq : (',' :: sep).intercalate (as.map write) ++ close :: x =
      (',' :: sep).intercalate (bs.map write) ++ close :: y) : as = bs ∧ x = y := by
  cases as with
  | nil =>
    cases bs with
    | nil => exact ⟨rfl, (List.cons.inj heq).2⟩
    | cons b bs =>
      rw [List.map_cons, intercalate_cons, List.append_assoc] at heq
      exact absurd heq.symm (hbs b (by simp) _ _)
  | cons a as =>
    cases bs with
    | nil =>
      rw [List.map_cons, intercalate_cons, List.append_assoc] at heq
      exact absurd heq (has a (by simp) _ _)
    | cons b bs =>
      rw [List.map_cons, intercalate_cons, List.append_assoc, List.map_cons, intercalate_cons,
        List.append_assoc] at heq
      obtain ⟨rfl, htail⟩ := h a (by simp) b (by simp) _ _ (follows_rest hsep hclose as x)
        (follows_rest hsep hclose bs y) heq
      obtain ⟨rfl, hxy⟩ := rest_inj hsep hclose hne
        (fun a ha b hb => h a (by simp [ha]) b (by simp [hb])) htail
      exact ⟨rfl, hxy⟩

end Separated

end Mt22.Text
