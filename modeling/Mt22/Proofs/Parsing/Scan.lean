import Mt22.Parsing.Run

/-!
# What a reading ends with

`Peg.run` carries two things that do not bear on what is matched: the attempts it remembers, and
the number of steps it is given.  Here both are taken away.

* `Peg.scan` is `Peg.run` without the attempts (`run_found`).
* A reading that ended with some number of steps ends in the same way with more (`scan_mono`), so
  `Peg.Ends m e c o`, "some number of steps is enough, and then the outcome is `o`", determines
  `o` (`Ends.unique`).

For every operator of the grammar there is a rule for each way in which it can end.  Those for the
ways in which it can match make up the relation `Peg.Matches` (`matches_iff_ends`), and whatever
holds of all that is read is proved by induction on it.
-/

namespace Mt22.Peg

/-- Reads an expression in at most `steps` nested steps, and remembers no attempts. -/
def scan (steps : Nat) (m : Mode) (e : Peg) (c : Cursor) : Option (Option Match) :=
  match steps with
  | 0 => none
  | steps + 1 =>
    match e with
    | text s => some (matchText s c)
    | one p => some (matchOne p c)
    | start => some (if c.offset = 0 then some ([], c) else none)
    | finish => some (if c.rest.isEmpty then some ([], c) else none)
    | call r =>
      match scan steps (m.enter r.kind) r.body c with
      | none => none
      | some (some (parts, c')) => some (some (m.leave r c c' parts, c'))
      | some none => some none
    | seq a b =>
      match scan steps m a c with
      | none => none
      | some none => some none
      | some (some (ta, ca)) =>
        match scan steps m b (m.skip ca).2 with
        | none => none
        | some none => some none
        | some (some (tb, cb)) => some (some (ta ++ (m.skip ca).1 ++ tb, cb))
    | choice a b =>
      match scan steps m a c with
      | none => none
      | some (some found) => some (some found)
      | some none => scan steps m b c
    | opt a =>
      match scan steps m a c with
      | none => none
      | some found => some (some (found.getD ([], c)))
    | star a =>
      match scan steps m a c with
      | none => none
      | some none => some (some ([], c))
      | some (some (ta, ca)) =>
        match scan steps m (more a) ca with
        | none => none
        | some found => some (found.map fun (ts, cs) => (ta ++ ts, cs))
    | more a =>
      match scan steps m a (m.skip c).2 with
      | none => none
      | some none => some (some ([], c))
      | some (some (ta, ca)) =>
        match scan steps m (more a) ca with
        | none => none
        | some found => some (found.map fun (ts, cs) => ((m.skip c).1 ++ ta ++ ts, cs))
    | ahead a =>
      match scan steps m.ahead a c with
      | none => none
      | some found => some (found.map fun _ => ([], c))
    | absent a =>
      match scan steps m.absent a c with
      | none => none
      | some found => some (if found.isSome then none else some ([], c))

/-! ### One step -/

section Step

variable (n : Nat) (m : Mode) (a b : Peg) (c : Cursor)

theorem scan_call (r : Rule) : scan (n + 1) m (call r) c =
    match scan n (m.enter r.kind) r.body c with
    | none => none
    | some (some (parts, c')) => some (some (m.leave r c c' parts, c'))
    | some none => some none := rfl

theorem scan_seq : scan (n + 1) m (seq a b) c =
    match scan n m a c with
    | none => none
    | some none => some none
    | some (some (ta, ca)) =>
      match scan n m b (m.skip ca).2 with
      | none => none
      | some none => some none
      | some (some (tb, cb)) => some (some (ta ++ (m.skip ca).1 ++ tb, cb)) := rfl

theorem scan_choice : scan (n + 1) m (choice a b) c =
    match scan n m a c with
    | none => none
    | some (some found) => some (some found)
    | some none => scan n m b c := rfl

theorem scan_opt : scan (n + 1) m (opt a) c =
    match scan n m a c with
    | none => none
    | some found => some (some (found.getD ([], c))) := rfl

theorem scan_star : scan (n + 1) m (star a) c =
    match scan n m a c with
    | none => none
    | some none => some (some ([], c))
    | some (some (ta, ca)) =>
      match scan n m (more a) ca with
      | none => none
      | some found => some (found.map fun (ts, cs) => (ta ++ ts, cs)) := rfl

theorem scan_more : scan (n + 1) m (more a) c =
    match scan n m a (m.skip c).2 with
    | none => none
    | some none => some (some ([], c))
    | some (some (ta, ca)) =>
      match scan n m (more a) ca with
      | none => none
      | some found => some (found.map fun (ts, cs) => ((m.skip c).1 ++ ta ++ ts, cs)) := rfl

theorem scan_ahead : scan (n + 1) m (ahead a) c =
    match scan n m.ahead a c with
    | none => none
    | some found => some (found.map fun _ => ([], c)) := rfl

theorem scan_absent : scan (n + 1) m (absent a) c =
    match scan n m.absent a c with
    | none => none
    | some found => some (if found.isSome then none else some ([], c)) := rfl

end Step

/-- **Attempts never decide what is matched.** -/
theorem run_found : ∀ (n : Nat) (m : Mode) (e : Peg) (c : Cursor) (w : Attempts),
    (run n m e c w).map Reply.found = scan n m e c := by
  intro n
  induction n with
  | zero => intro m e c w; rfl
  | succ n ih =>
    intro m e c w
    cases e with
    | text s => rfl
    | one p => rfl
    | start => rfl
    | finish => rfl
    | call r =>
      simp only [run, scan_call]
      rw [← ih (m.enter r.kind) r.body c w]
      rcases run n (m.enter r.kind) r.body c w with _ | ⟨_ | ⟨parts, c'⟩, w'⟩ <;> rfl
    | seq a b =>
      simp only [run, scan_seq]
      rw [← ih m a c w]
      rcases run n m a c w with _ | ⟨_ | ⟨ta, ca⟩, w'⟩
      · rfl
      · rfl
      · simp only [Option.map_some]
        rw [← ih m b _ w']
        rcases run n m b (m.skip ca).2 w' with _ | ⟨_ | ⟨tb, cb⟩, w''⟩ <;> rfl
    | choice a b =>
      simp only [run, scan_choice]
      rw [← ih m a c w]
      rcases run n m a c w with _ | ⟨_ | found, w'⟩
      · rfl
      · simp only [Option.map_some]
        exact ih m b c w'
      · rfl
    | opt a =>
      simp only [run, scan_opt]
      rw [← ih m a c w]
      rcases run n m a c w with _ | ⟨found, w'⟩ <;> rfl
    | star a =>
      simp only [run, scan_star]
      rw [← ih m a c w]
      rcases run n m a c w with _ | ⟨_ | ⟨ta, ca⟩, w'⟩
      · rfl
      · rfl
      · simp only [Option.map_some]
        rw [← ih m (more a) ca w']
        rcases run n m (more a) ca w' with _ | ⟨found, w''⟩ <;> rfl
    | more a =>
      simp only [run, scan_more]
      rw [← ih m a _ w]
      rcases run n m a (m.skip c).2 w with _ | ⟨_ | ⟨ta, ca⟩, w'⟩
      · rfl
      · rfl
      · simp only [Option.map_some]
        rw [← ih m (more a) ca w']
        rcases run n m (more a) ca w' with _ | ⟨found, w''⟩ <;> rfl
    | ahead a =>
      simp only [run, scan_ahead]
      rw [← ih m.ahead a c w]
      rcases run n m.ahead a c w with _ | ⟨found, w'⟩ <;> rfl
    | absent a =>
      simp only [run, scan_absent]
      rw [← ih m.absent a c w]
      rcases run n m.absent a c w with _ | ⟨found, w'⟩ <;> rfl

/-! ### How a match comes about

What is known of the parts when an expression has matched within `n + 1` steps. -/

section Inversion

variable {n : Nat} {m : Mode} {a b : Peg} {c c' : Cursor} {ts : List Tree}

theorem matchText_some {s : List Char} (h : matchText s c = some (ts, c')) :
    ∃ rest, c.rest = s ++ rest ∧ ts = [.token s] ∧ c' = c.moved s rest := by
  unfold matchText at h
  split at h
  · next hp =>
    obtain ⟨rest, hrest⟩ := List.isPrefixOf_iff_prefix.mp hp
    obtain ⟨rfl, rfl⟩ := Prod.mk.inj (Option.some.inj h)
    exact ⟨rest, hrest.symm, rfl, by rw [← hrest, List.drop_left]⟩
  · cases h

theorem matchOne_some {p : Char → Bool} (h : matchOne p c = some (ts, c')) :
    ∃ x rest, p x = true ∧ c.rest = x :: rest ∧ ts = [.token [x]] ∧ c' = c.moved [x] rest := by
  unfold matchOne at h
  split at h
  · cases h
  · next x rest hrest =>
    split at h
    · next hp =>
      obtain ⟨rfl, rfl⟩ := Prod.mk.inj (Option.some.inj h)
      exact ⟨x, rest, hp, hrest, rfl, rfl⟩
    · cases h

theorem scan_start_some (h : scan (n + 1) m start c = some (some (ts, c'))) :
    c.offset = 0 ∧ ts = [] ∧ c' = c := by
  change some (if c.offset = 0 then some ([], c) else none) = _ at h
  split at h
  · next ho =>
    obtain ⟨rfl, rfl⟩ := Prod.mk.inj (Option.some.inj (Option.some.inj h))
    exact ⟨ho, rfl, rfl⟩
  · cases h

theorem scan_finish_some (h : scan (n + 1) m finish c = some (some (ts, c'))) :
    c.rest = [] ∧ ts = [] ∧ c' = c := by
  change some (if c.rest.isEmpty then some ([], c) else none) = _ at h
  split at h
  · next he =>
    obtain ⟨rfl, rfl⟩ := Prod.mk.inj (Option.some.inj (Option.some.inj h))
    exact ⟨by simpa using he, rfl, rfl⟩
  · cases h

theorem scan_call_some {r : Rule} (h : scan (n + 1) m (call r) c = some (some (ts, c'))) :
    ∃ parts, scan n (m.enter r.kind) r.body c = some (some (parts, c')) ∧
      ts = m.leave r c c' parts := by
  rw [scan_call] at h
  rcases hb : scan n (m.enter r.kind) r.body c with _ | _ | ⟨parts, cb⟩ <;> rw [hb] at h
  · cases h
  · cases h
  · obtain ⟨rfl, rfl⟩ := Prod.mk.inj (Option.some.inj (Option.some.inj h))
    exact ⟨parts, rfl, rfl⟩

theorem scan_seq_some (h : scan (n + 1) m (seq a b) c = some (some (ts, c'))) :
    ∃ ta ca tb, scan n m a c = some (some (ta, ca)) ∧
      scan n m b (m.skip ca).2 = some (some (tb, c')) ∧ ts = ta ++ (m.skip ca).1 ++ tb := by
  rw [scan_seq] at h
  rcases ha : scan n m a c with _ | _ | ⟨ta, ca⟩ <;> rw [ha] at h
  · cases h
  · cases h
  · rcases hb : scan n m b (m.skip ca).2 with _ | _ | ⟨tb, cb⟩ <;> simp only [hb] at h
    · cases h
    · cases h
    · obtain ⟨rfl, rfl⟩ := Prod.mk.inj (Option.some.inj (Option.some.inj h))
      exact ⟨ta, ca, tb, rfl, hb, rfl⟩

theorem scan_choice_some (h : scan (n + 1) m (choice a b) c = some (some (ts, c'))) :
    scan n m a c = some (some (ts, c')) ∨
      scan n m a c = some none ∧ scan n m b c = some (some (ts, c')) := by
  rw [scan_choice] at h
  rcases ha : scan n m a c with _ | _ | found <;> rw [ha] at h
  · cases h
  · exact .inr ⟨rfl, h⟩
  · exact .inl h

theorem scan_opt_some (h : scan (n + 1) m (opt a) c = some (some (ts, c'))) :
    scan n m a c = some (some (ts, c')) ∨ scan n m a c = some none ∧ ts = [] ∧ c' = c := by
  rw [scan_opt] at h
  rcases ha : scan n m a c with _ | _ | found <;> rw [ha] at h
  · cases h
  · obtain ⟨rfl, rfl⟩ := Prod.mk.inj (Option.some.inj (Option.some.inj h))
    exact .inr ⟨rfl, rfl, rfl⟩
  · exact .inl h

theorem scan_star_some (h : scan (n + 1) m (star a) c = some (some (ts, c'))) :
    (scan n m a c = some none ∧ ts = [] ∧ c' = c) ∨
      ∃ ta ca us, scan n m a c = some (some (ta, ca)) ∧
        scan n m (more a) ca = some (some (us, c')) ∧ ts = ta ++ us := by
  rw [scan_star] at h
  rcases ha : scan n m a c with _ | _ | ⟨ta, ca⟩ <;> rw [ha] at h
  · cases h
  · obtain ⟨rfl, rfl⟩ := Prod.mk.inj (Option.some.inj (Option.some.inj h))
    exact .inl ⟨rfl, rfl, rfl⟩
  · rcases hb : scan n m (more a) ca with _ | _ | ⟨tb, cb⟩ <;> simp only [hb] at h
    · cases h
    · cases h
    · obtain ⟨rfl, rfl⟩ := Prod.mk.inj (Option.some.inj (Option.some.inj h))
      exact .inr ⟨ta, ca, tb, rfl, hb, rfl⟩

theorem scan_more_some (h : scan (n + 1) m (more a) c = some (some (ts, c'))) :
    (scan n m a (m.skip c).2 = some none ∧ ts = [] ∧ c' = c) ∨
      ∃ ta ca us, scan n m a (m.skip c).2 = some (some (ta, ca)) ∧
        scan n m (more a) ca = some (some (us, c')) ∧ ts = (m.skip c).1 ++ ta ++ us := by
  rw [scan_more] at h
  rcases ha : scan n m a (m.skip c).2 with _ | _ | ⟨ta, ca⟩ <;> rw [ha] at h
  · cases h
  · obtain ⟨rfl, rfl⟩ := Prod.mk.inj (Option.some.inj (Option.some.inj h))
    exact .inl ⟨rfl, rfl, rfl⟩
  · rcases hb : scan n m (more a) ca with _ | _ | ⟨tb, cb⟩ <;> simp only [hb] at h
    · cases h
    · cases h
    · obtain ⟨rfl, rfl⟩ := Prod.mk.inj (Option.some.inj (Option.some.inj h))
      exact .inr ⟨ta, ca, tb, rfl, hb, rfl⟩

theorem scan_ahead_some (h : scan (n + 1) m (ahead a) c = some (some (ts, c'))) :
    ts = [] ∧ c' = c ∧ ∃ x, scan n m.ahead a c = some (some x) := by
  rw [scan_ahead] at h
  rcases ha : scan n m.ahead a c with _ | _ | found <;> rw [ha] at h
  · cases h
  · cases h
  · obtain ⟨rfl, rfl⟩ := Prod.mk.inj (Option.some.inj (Option.some.inj h))
    exact ⟨rfl, rfl, found, rfl⟩

theorem scan_absent_some (h : scan (n + 1) m (absent a) c = some (some (ts, c'))) :
    ts = [] ∧ c' = c ∧ scan n m.absent a c = some none := by
  rw [scan_absent] at h
  rcases ha : scan n m.absent a c with _ | _ | found <;> rw [ha] at h
  · cases h
  · obtain ⟨rfl, rfl⟩ := Prod.mk.inj (Option.some.inj (Option.some.inj h))
    exact ⟨rfl, rfl, rfl⟩
  · cases h

end Inversion

/-! ### More steps -/

theorem scan_succ : ∀ (n : Nat) {m : Mode} {e : Peg} {c : Cursor} {o : Option Match},
    scan n m e c = some o → scan (n + 1) m e c = some o := by
  intro n
  induction n with
  | zero => intro m e c o h; cases h
  | succ n ih =>
    intro m e c o h
    cases e with
    | text s => exact h
    | one p => exact h
    | start => exact h
    | finish => exact h
    | call r =>
      rw [scan_call] at h ⊢
      cases hb : scan n (m.enter r.kind) r.body c with
      | none => rw [hb] at h; cases h
      | some x => rw [hb] at h; rw [ih hb]; exact h
    | seq a b =>
      rw [scan_seq] at h ⊢
      rcases ha : scan n m a c with _ | _ | ⟨ta, ca⟩
      · rw [ha] at h; cases h
      · rw [ha] at h; rw [ih ha]; exact h
      · rw [ha] at h; rw [ih ha]
        cases hb : scan n m b (m.skip ca).2 with
        | none => simp only [hb] at h; cases h
        | some x => simp only [hb] at h; simp only [ih hb]; exact h
    | choice a b =>
      rw [scan_choice] at h ⊢
      rcases ha : scan n m a c with _ | _ | found
      · rw [ha] at h; cases h
      · rw [ha] at h; rw [ih ha]; exact ih h
      · rw [ha] at h; rw [ih ha]; exact h
    | opt a =>
      rw [scan_opt] at h ⊢
      cases ha : scan n m a c with
      | none => rw [ha] at h; cases h
      | some x => rw [ha] at h; rw [ih ha]; exact h
    | star a =>
      rw [scan_star] at h ⊢
      rcases ha : scan n m a c with _ | _ | ⟨ta, ca⟩
      · rw [ha] at h; cases h
      · rw [ha] at h; rw [ih ha]; exact h
      · rw [ha] at h; rw [ih ha]
        cases hb : scan n m (more a) ca with
        | none => simp only [hb] at h; cases h
        | some x => simp only [hb] at h; simp only [ih hb]; exact h
    | more a =>
      rw [scan_more] at h ⊢
      rcases ha : scan n m a (m.skip c).2 with _ | _ | ⟨ta, ca⟩
      · rw [ha] at h; cases h
      · rw [ha] at h; rw [ih ha]; exact h
      · rw [ha] at h; rw [ih ha]
        cases hb : scan n m (more a) ca with
        | none => simp only [hb] at h; cases h
        | some x => simp only [hb] at h; simp only [ih hb]; exact h
    | ahead a =>
      rw [scan_ahead] at h ⊢
      cases ha : scan n m.ahead a c with
      | none => rw [ha] at h; cases h
      | some x => rw [ha] at h; rw [ih ha]; exact h
    | absent a =>
      rw [scan_absent] at h ⊢
      cases ha : scan n m.absent a c with
      | none => rw [ha] at h; cases h
      | some x => rw [ha] at h; rw [ih ha]; exact h

/-- A reading that ended ends in the same way when it is given more steps. -/
theorem scan_mono {n k : Nat} {m : Mode} {e : Peg} {c : Cursor} {o : Option Match} (hk : n ≤ k)
    (h : scan n m e c = some o) : scan k m e c = some o := by
  induction hk with
  | refl => exact h
  | step _ ih => exact scan_succ _ ih

/-- Reading `e` at `c` ends, and `o` is what it ends with. -/
def Ends (m : Mode) (e : Peg) (c : Cursor) (o : Option Match) : Prop := ∃ n, scan n m e c = some o

theorem Ends.unique {m : Mode} {e : Peg} {c : Cursor} {o o' : Option Match} (h : Ends m e c o)
    (h' : Ends m e c o') : o = o' := by
  obtain ⟨n, hn⟩ := h
  obtain ⟨k, hk⟩ := h'
  have h1 := scan_mono (Nat.le_max_left n k) hn
  have h2 := scan_mono (Nat.le_max_right n k) hk
  rw [h1] at h2
  exact Option.some.inj h2

namespace Ends

variable {m : Mode} {a b : Peg} {c : Cursor}

theorem text (s : List Char) (c : Cursor) : Ends m (.text s) c (matchText s c) := ⟨1, rfl⟩

theorem one (p : Char → Bool) (c : Cursor) : Ends m (.one p) c (matchOne p c) := ⟨1, rfl⟩

theorem start (c : Cursor) : Ends m .start c (if c.offset = 0 then some ([], c) else none) :=
  ⟨1, rfl⟩

theorem finish (c : Cursor) :
    Ends m .finish c (if c.rest.isEmpty then some ([], c) else none) := ⟨1, rfl⟩

theorem call_some {r : Rule} {parts : List Tree} {c' : Cursor}
    (h : Ends (m.enter r.kind) r.body c (some (parts, c'))) :
    Ends m (.call r) c (some (m.leave r c c' parts, c')) := by
  obtain ⟨n, hn⟩ := h
  exact ⟨n + 1, by rw [scan_call, hn]⟩

theorem call_none {r : Rule} (h : Ends (m.enter r.kind) r.body c none) :
    Ends m (.call r) c none := by
  obtain ⟨n, hn⟩ := h
  exact ⟨n + 1, by rw [scan_call, hn]⟩

theorem seq_some {ta tb : List Tree} {ca cb : Cursor} (ha : Ends m a c (some (ta, ca)))
    (hb : Ends m b (m.skip ca).2 (some (tb, cb))) :
    Ends m (.seq a b) c (some (ta ++ (m.skip ca).1 ++ tb, cb)) := by
  obtain ⟨n, hn⟩ := ha
  obtain ⟨k, hk⟩ := hb
  refine ⟨max n k + 1, ?_⟩
  rw [scan_seq, scan_mono (Nat.le_max_left n k) hn]
  simp only [scan_mono (Nat.le_max_right n k) hk]

theorem seq_none_left (ha : Ends m a c none) : Ends m (.seq a b) c none := by
  obtain ⟨n, hn⟩ := ha
  exact ⟨n + 1, by rw [scan_seq, hn]⟩

theorem seq_none_right {ta : List Tree} {ca : Cursor} (ha : Ends m a c (some (ta, ca)))
    (hb : Ends m b (m.skip ca).2 none) : Ends m (.seq a b) c none := by
  obtain ⟨n, hn⟩ := ha
  obtain ⟨k, hk⟩ := hb
  refine ⟨max n k + 1, ?_⟩
  rw [scan_seq, scan_mono (Nat.le_max_left n k) hn]
  simp only [scan_mono (Nat.le_max_right n k) hk]

theorem choice_left {x : Match} (ha : Ends m a c (some x)) : Ends m (.choice a b) c (some x) := by
  obtain ⟨n, hn⟩ := ha
  exact ⟨n + 1, by rw [scan_choice, hn]⟩

theorem choice_right {o : Option Match} (ha : Ends m a c none) (hb : Ends m b c o) :
    Ends m (.choice a b) c o := by
  obtain ⟨n, hn⟩ := ha
  obtain ⟨k, hk⟩ := hb
  refine ⟨max n k + 1, ?_⟩
  rw [scan_choice, scan_mono (Nat.le_max_left n k) hn]
  simp only [scan_mono (Nat.le_max_right n k) hk]

theorem opt {o : Option Match} (ha : Ends m a c o) :
    Ends m (.opt a) c (some (o.getD ([], c))) := by
  obtain ⟨n, hn⟩ := ha
  exact ⟨n + 1, by rw [scan_opt, hn]⟩

theorem star_nil (ha : Ends m a c none) : Ends m (.star a) c (some ([], c)) := by
  obtain ⟨n, hn⟩ := ha
  exact ⟨n + 1, by rw [scan_star, hn]⟩

theorem star_cons {ta ts : List Tree} {ca cs : Cursor} (ha : Ends m a c (some (ta, ca)))
    (hs : Ends m (.more a) ca (some (ts, cs))) :
    Ends m (.star a) c (some (ta ++ ts, cs)) := by
  obtain ⟨n, hn⟩ := ha
  obtain ⟨k, hk⟩ := hs
  refine ⟨max n k + 1, ?_⟩
  rw [scan_star, scan_mono (Nat.le_max_left n k) hn]
  simp only [scan_mono (Nat.le_max_right n k) hk, Option.map_some]

theorem more_nil (ha : Ends m a (m.skip c).2 none) : Ends m (.more a) c (some ([], c)) := by
  obtain ⟨n, hn⟩ := ha
  exact ⟨n + 1, by rw [scan_more, hn]⟩

theorem more_cons {ta ts : List Tree} {ca cs : Cursor} (ha : Ends m a (m.skip c).2 (some (ta, ca)))
    (hs : Ends m (.more a) ca (some (ts, cs))) :
    Ends m (.more a) c (some ((m.skip c).1 ++ ta ++ ts, cs)) := by
  obtain ⟨n, hn⟩ := ha
  obtain ⟨k, hk⟩ := hs
  refine ⟨max n k + 1, ?_⟩
  rw [scan_more, scan_mono (Nat.le_max_left n k) hn]
  simp only [scan_mono (Nat.le_max_right n k) hk, Option.map_some]

theorem ahead {o : Option Match} (ha : Ends m.ahead a c o) :
    Ends m (.ahead a) c (o.map fun _ => ([], c)) := by
  obtain ⟨n, hn⟩ := ha
  exact ⟨n + 1, by rw [scan_ahead, hn]⟩

theorem absent {o : Option Match} (ha : Ends m.absent a c o) :
    Ends m (.absent a) c (if o.isSome then none else some ([], c)) := by
  obtain ⟨n, hn⟩ := ha
  exact ⟨n + 1, by rw [scan_absent, hn]⟩

end Ends

/-! ### Matches -/

/-- The expression matches at `c`, leaves trees and reaches `c'`.  Where a match depends on something
that does not match, the reading of that has ended. -/
inductive Matches : Mode → Peg → Cursor → List Tree → Cursor → Prop
  | text {m : Mode} {s rest : List Char} {c : Cursor} (h : c.rest = s ++ rest) :
      Matches m (.text s) c [.token s] (c.moved s rest)
  | one {m : Mode} {p : Char → Bool} {x : Char} {rest : List Char} {c : Cursor} (hp : p x = true)
      (h : c.rest = x :: rest) : Matches m (.one p) c [.token [x]] (c.moved [x] rest)
  | start {m : Mode} {c : Cursor} (h : c.offset = 0) : Matches m .start c [] c
  | finish {m : Mode} {c : Cursor} (h : c.rest = []) : Matches m .finish c [] c
  | call {m : Mode} {r : Rule} {c c' : Cursor} {parts : List Tree}
      (h : Matches (m.enter r.kind) r.body c parts c') :
      Matches m (.call r) c (m.leave r c c' parts) c'
  | seq {m : Mode} {a b : Peg} {c ca c' : Cursor} {ta tb : List Tree} (ha : Matches m a c ta ca)
      (hb : Matches m b (m.skip ca).2 tb c') :
      Matches m (.seq a b) c (ta ++ (m.skip ca).1 ++ tb) c'
  | left {m : Mode} {a b : Peg} {c c' : Cursor} {ts : List Tree} (h : Matches m a c ts c') :
      Matches m (.choice a b) c ts c'
  | right {m : Mode} {a b : Peg} {c c' : Cursor} {ts : List Tree} (ha : Ends m a c none)
      (h : Matches m b c ts c') : Matches m (.choice a b) c ts c'
  | within {m : Mode} {a : Peg} {c c' : Cursor} {ts : List Tree} (h : Matches m a c ts c') :
      Matches m (.opt a) c ts c'
  | without {m : Mode} {a : Peg} {c : Cursor} (ha : Ends m a c none) : Matches m (.opt a) c [] c
  | starNil {m : Mode} {a : Peg} {c : Cursor} (ha : Ends m a c none) : Matches m (.star a) c [] c
  | starCons {m : Mode} {a : Peg} {c ca c' : Cursor} {ta us : List Tree} (ha : Matches m a c ta ca)
      (hu : Matches m (.more a) ca us c') : Matches m (.star a) c (ta ++ us) c'
  | moreNil {m : Mode} {a : Peg} {c : Cursor} (ha : Ends m a (m.skip c).2 none) :
      Matches m (.more a) c [] c
  | moreCons {m : Mode} {a : Peg} {c ca c' : Cursor} {ta us : List Tree}
      (ha : Matches m a (m.skip c).2 ta ca) (hu : Matches m (.more a) ca us c') :
      Matches m (.more a) c ((m.skip c).1 ++ ta ++ us) c'
  | ahead {m : Mode} {a : Peg} {c : Cursor} {x : Match} (h : Ends m.ahead a c (some x)) :
      Matches m (.ahead a) c [] c
  | absent {m : Mode} {a : Peg} {c : Cursor} (h : Ends m.absent a c none) :
      Matches m (.absent a) c [] c

theorem matches_of_scan : ∀ (n : Nat) {m : Mode} {e : Peg} {c c' : Cursor} {ts : List Tree},
    scan n m e c = some (some (ts, c')) → Matches m e c ts c' := by
  intro n
  induction n with
  | zero => intro m e c c' ts h; cases h
  | succ n ih =>
    intro m e c c' ts h
    cases e with
    | text s =>
      obtain ⟨rest, hrest, rfl, rfl⟩ := matchText_some (Option.some.inj h)
      exact .text hrest
    | one p =>
      obtain ⟨x, rest, hp, hrest, rfl, rfl⟩ := matchOne_some (Option.some.inj h)
      exact .one hp hrest
    | start =>
      obtain ⟨ho, rfl, rfl⟩ := scan_start_some h
      exact .start ho
    | finish =>
      obtain ⟨hrest, rfl, rfl⟩ := scan_finish_some h
      exact .finish hrest
    | call r =>
      obtain ⟨parts, hb, rfl⟩ := scan_call_some h
      exact .call (ih hb)
    | seq a b =>
      obtain ⟨ta, ca, tb, ha, hb, rfl⟩ := scan_seq_some h
      exact .seq (ih ha) (ih hb)
    | choice a b =>
      rcases scan_choice_some h with ha | ⟨ha, hb⟩
      · exact .left (ih ha)
      · exact .right ⟨n, ha⟩ (ih hb)
    | opt a =>
      rcases scan_opt_some h with ha | ⟨ha, rfl, rfl⟩
      · exact .within (ih ha)
      · exact .without ⟨n, ha⟩
    | star a =>
      rcases scan_star_some h with ⟨ha, rfl, rfl⟩ | ⟨ta, ca, us, ha, hu, rfl⟩
      · exact .starNil ⟨n, ha⟩
      · exact .starCons (ih ha) (ih hu)
    | more a =>
      rcases scan_more_some h with ⟨ha, rfl, rfl⟩ | ⟨ta, ca, us, ha, hu, rfl⟩
      · exact .moreNil ⟨n, ha⟩
      · exact .moreCons (ih ha) (ih hu)
    | ahead a =>
      obtain ⟨rfl, rfl, x, ha⟩ := scan_ahead_some h
      exact .ahead ⟨n, ha⟩
    | absent a =>
      obtain ⟨rfl, rfl, ha⟩ := scan_absent_some h
      exact .absent ⟨n, ha⟩

section

variable {m : Mode} {e : Peg} {c c' : Cursor} {ts : List Tree}

theorem Matches.ends (h : Matches m e c ts c') : Ends m e c (some (ts, c')) := by
  induction h with
  | @text m s rest c h =>
    have hmatch : matchText s c = some ([.token s], c.moved s rest) := by simp [matchText, h]
    exact hmatch ▸ .text s c
  | @one m p x rest c hp h =>
    have hmatch : matchOne p c = some ([.token [x]], c.moved [x] rest) := by simp [matchOne, h, hp]
    exact hmatch ▸ .one p c
  | @start m c h => simpa [h] using Ends.start (m := m) c
  | @finish m c h => simpa [h] using Ends.finish (m := m) c
  | call _ ih => exact .call_some ih
  | seq _ _ iha ihb => exact .seq_some iha ihb
  | left _ ih => exact .choice_left ih
  | right ha _ ih => exact .choice_right ha ih
  | within _ ih => exact .opt ih
  | without ha => exact .opt ha
  | starNil ha => exact .star_nil ha
  | starCons _ _ iha ihu => exact .star_cons iha ihu
  | moreNil ha => exact .more_nil ha
  | moreCons _ _ iha ihu => exact .more_cons iha ihu
  | ahead h => exact .ahead h
  | absent h => exact .absent h

/-- **A reading ends with a match exactly if the expression matches.** -/
theorem matches_iff_ends : Matches m e c ts c' ↔ Ends m e c (some (ts, c')) :=
  ⟨Matches.ends, fun ⟨n, hn⟩ => matches_of_scan n hn⟩

theorem Ends.matches (h : Ends m e c (some (ts, c'))) : Matches m e c ts c' := matches_iff_ends.mpr h

end

end Mt22.Peg
