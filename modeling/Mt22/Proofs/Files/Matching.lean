import Mathlib.Data.List.Forall2
import Mathlib.Data.List.TakeWhile
import Mt22.Files.Basic
import Mt22.Files.Pattern
import Mt22.Proofs.Text.Parting

/-!
# What a component of a pattern matches

`Pattern.MatchesName` says which names a component of a pattern matches, on its characters as they are
written.  The program reads the component into tokens and compares these with the name, which comes
to the same (`Pattern.Lexes.matchAll_iff`).

`Pattern.parse_ok` puts this together for a whole pattern: its components are read one by one, and
then runs of `**` are made one.
-/

namespace Mt22.Pattern

open Text

variable {c first : Char} {body text name rest after : List Char}

/-! ### Sets -/

/-- A range `a-b` stands at the start of the text. -/
def StartsRange (rest : List Char) : Prop := ∃ b after, rest = '-' :: b :: after

/-- What stands between the brackets of a set holds a character: in a range `a-b`, or by itself. -/
inductive Holds : List Char → Char → Prop
  | range {a b c : Char} {rest : List Char} (ha : a ≤ c) (hb : c ≤ b) :
      Holds (a :: '-' :: b :: rest) c
  | afterRange {a b c : Char} {rest : List Char} (h : Holds rest c) :
      Holds (a :: '-' :: b :: rest) c
  | char {c : Char} {rest : List Char} (hr : ¬ StartsRange rest) : Holds (c :: rest) c
  | afterChar {a c : Char} {rest : List Char} (hr : ¬ StartsRange rest) (h : Holds rest c) :
      Holds (a :: rest) c

theorem any_ranges_iff (body : List Char) (c : Char) :
    ((ranges body).any fun r => r.1 ≤ c && c ≤ r.2) = true ↔ Holds body c := by
  fun_induction ranges body with
  | case1 a b rest ih =>
    have hr : StartsRange ('-' :: b :: rest) := ⟨b, rest, rfl⟩
    rw [List.any_cons, Bool.or_eq_true, ih, Bool.and_eq_true, decide_eq_true_iff,
      decide_eq_true_iff]
    constructor
    · rintro (⟨ha, hb⟩ | h)
      · exact .range ha hb
      · exact .afterRange h
    · intro h
      cases h with
      | range ha hb => exact .inl ⟨ha, hb⟩
      | afterRange h => exact .inr h
      | char hnot | afterChar hnot => exact absurd hr hnot
  | case2 a rest hnot ih =>
    have hr : ¬ StartsRange rest := by
      rintro ⟨b, after, rfl⟩
      exact hnot b after rfl
    rw [List.any_cons, Bool.or_eq_true, ih, Bool.and_eq_true, decide_eq_true_iff,
      decide_eq_true_iff]
    constructor
    · rintro (⟨ha, hb⟩ | h)
      · rw [Char.le_antisymm hb ha]
        exact .char hr
      · exact .afterChar hr h
    · intro h
      cases h with
      | range | afterRange => exact absurd ⟨_, _, rfl⟩ hr
      | char => exact .inl ⟨Char.le_refl _, Char.le_refl _⟩
      | afterChar _ h => exact .inr h
  | case3 =>
    constructor
    · intro h
      cases h
    · intro h
      cases h

/-! ### Names -/

/-- A component of a pattern, as it is written, matches a name. -/
inductive MatchesName : List Char → List Char → Prop
  | nil : MatchesName [] []
  | run {text name : List Char} (skipped : List Char) (h : MatchesName text name) :
      MatchesName ('*' :: text) (skipped ++ name)
  | any {c : Char} {text name : List Char} (h : MatchesName text name) :
      MatchesName ('?' :: text) (c :: name)
  /-- The first character of a set never closes it. -/
  | inside {first c : Char} {body text name : List Char} (hfirst : first ≠ '!') (hbody : ']' ∉ body)
      (hc : Holds (first :: body) c) (h : MatchesName text name) :
      MatchesName ('[' :: first :: (body ++ ']' :: text)) (c :: name)
  | outside {first c : Char} {body text name : List Char} (hbody : ']' ∉ body)
      (hc : ¬ Holds (first :: body) c) (h : MatchesName text name) :
      MatchesName ('[' :: '!' :: first :: (body ++ ']' :: text)) (c :: name)
  | char {c : Char} {text name : List Char} (hc : c ∉ ['*', '?', '[']) (h : MatchesName text name) :
      MatchesName (c :: text) (c :: name)

theorem matchesName_nil_iff : MatchesName [] name ↔ name = [] := by
  constructor
  · rintro ⟨⟩
    rfl
  · rintro rfl
    exact .nil

theorem matchesName_run_iff :
    MatchesName ('*' :: text) name ↔ ∃ skipped rest, name = skipped ++ rest ∧ MatchesName text rest := by
  constructor
  · intro h
    cases h with
    | run skipped h => exact ⟨skipped, _, rfl, h⟩
    | char hc => exact absurd hc (by decide)
  · rintro ⟨skipped, rest, rfl, h⟩
    exact .run skipped h

theorem matchesName_any_iff :
    MatchesName ('?' :: text) name ↔ ∃ c rest, name = c :: rest ∧ MatchesName text rest := by
  constructor
  · intro h
    cases h with
    | any h => exact ⟨_, _, rfl, h⟩
    | char hc => exact absurd hc (by decide)
  · rintro ⟨c, rest, rfl, h⟩
    exact .any h

theorem matchesName_char_iff (hc : c ∉ ['*', '?', '[']) :
    MatchesName (c :: text) name ↔ ∃ rest, name = c :: rest ∧ MatchesName text rest := by
  constructor
  · intro h
    cases h with
    | run | any | inside | outside => exact absurd hc (by decide)
    | char _ h => exact ⟨_, rfl, h⟩
  · rintro ⟨rest, rfl, h⟩
    exact .char hc h

/-- The first bracket that closes a set is known. -/
theorem append_bracket_inj {body' text' : List Char} (hbody : ']' ∉ body) (hbody' : ']' ∉ body')
    (h : body ++ ']' :: text = body' ++ ']' :: text') : body = body' ∧ text = text' := by
  have hstops : ∀ s, Token.Stops (fun d => decide (d ≠ ']')) (']' :: s) :=
    fun s => Token.stops_cons (by decide)
  have hall : ∀ {s : List Char}, ']' ∉ s → s.all (fun d => decide (d ≠ ']')) = true := by
    intro s hs
    refine List.all_eq_true.mpr fun d hd => decide_eq_true ?_
    rintro rfl
    exact hs hd
  obtain ⟨hb, ht⟩ := append_inj_of_stops (hall hbody) (hall hbody') (hstops _) (hstops _) h
  exact ⟨hb, (List.cons.inj ht).2⟩

theorem matchesName_inside_iff (hfirst : first ≠ '!') (hbody : ']' ∉ body) :
    MatchesName ('[' :: first :: (body ++ ']' :: text)) name ↔
      ∃ c rest, name = c :: rest ∧ Holds (first :: body) c ∧ MatchesName text rest := by
  constructor
  · intro h
    generalize hs : '[' :: first :: (body ++ ']' :: text) = s at h
    cases h with
    | nil | run | any => simp at hs
    | inside hfirst' hbody' hc h =>
      obtain ⟨rfl, heq⟩ := List.cons.inj (List.cons.inj hs).2
      obtain ⟨rfl, rfl⟩ := append_bracket_inj hbody hbody' heq
      exact ⟨_, _, rfl, hc, h⟩
    | outside => exact absurd (List.cons.inj (List.cons.inj hs).2).1 hfirst
    | char hc =>
      rw [← (List.cons.inj hs).1] at hc
      exact absurd hc (by decide)
  · rintro ⟨c, rest, rfl, hc, h⟩
    exact .inside hfirst hbody hc h

theorem matchesName_outside_iff (hbody : ']' ∉ body) :
    MatchesName ('[' :: '!' :: first :: (body ++ ']' :: text)) name ↔
      ∃ c rest, name = c :: rest ∧ ¬ Holds (first :: body) c ∧ MatchesName text rest := by
  constructor
  · intro h
    generalize hs : '[' :: '!' :: first :: (body ++ ']' :: text) = s at h
    cases h with
    | nil | run | any => simp at hs
    | inside hfirst => exact absurd (List.cons.inj (List.cons.inj hs).2).1.symm hfirst
    | outside hbody' hc h =>
      obtain ⟨rfl, heq⟩ := List.cons.inj (List.cons.inj (List.cons.inj hs).2).2
      obtain ⟨rfl, rfl⟩ := append_bracket_inj hbody hbody' heq
      exact ⟨_, _, rfl, hc, h⟩
    | char hc =>
      rw [← (List.cons.inj hs).1] at hc
      exact absurd hc (by decide)
  · rintro ⟨c, rest, rfl, hc, h⟩
    exact .outside hbody hc h

/-! ### Tokens -/

/-- The tokens of a component that is not `**`. -/
inductive Lexes : List Char → List Token → Prop
  | nil : Lexes [] []
  | run {text : List Char} {ts : List Token} (h : Lexes text ts) : Lexes ('*' :: text) (.run :: ts)
  | any {text : List Char} {ts : List Token} (h : Lexes text ts) : Lexes ('?' :: text) (.any :: ts)
  | inside {first : Char} {body text : List Char} {ts : List Token} (hfirst : first ≠ '!')
      (hbody : ']' ∉ body) (h : Lexes text ts) :
      Lexes ('[' :: first :: (body ++ ']' :: text)) (.set false (ranges (first :: body)) :: ts)
  | outside {first : Char} {body text : List Char} {ts : List Token} (hbody : ']' ∉ body)
      (h : Lexes text ts) :
      Lexes ('[' :: '!' :: first :: (body ++ ']' :: text)) (.set true (ranges (first :: body)) :: ts)
  | char {c : Char} {text : List Char} {ts : List Token} (hc : c ∉ ['*', '?', '['])
      (h : Lexes text ts) : Lexes (c :: text) (.char c :: ts)

theorem setBody?_ok {s : List Char} (h : setBody? s = some (body, after)) :
    ∃ first mid, s = first :: (mid ++ ']' :: after) ∧ ']' ∉ mid ∧ body = first :: mid := by
  cases s with
  | nil => cases h
  | cons first rest =>
    rw [setBody?] at h
    have happend := List.takeWhile_append_dropWhile (p := (· != ']')) (l := rest)
    split at h
    · next d rest' hdrop =>
      obtain ⟨rfl, rfl⟩ := Prod.mk.inj (Option.some.inj h)
      have hd : d = ']' := by
        have hnot := List.head?_dropWhile_not (p := (· != ']')) (l := rest)
        rw [hdrop] at hnot
        simpa using hnot
      subst hd
      refine ⟨first, rest.takeWhile (· != ']'), ?_, ?_, rfl⟩
      · rw [← hdrop, happend]
      · intro hmem
        have htake := List.mem_takeWhile_imp hmem
        simp at htake
    · cases h

/-- What is read of a set, and the text that goes on after it. -/
theorem set?_ok {s : List Char} {t : Token} (h : set? s = some (t, after)) :
    ∃ first mid, ']' ∉ mid ∧
      (s = '!' :: first :: (mid ++ ']' :: after) ∧ t = .set true (ranges (first :: mid)) ∨
        first ≠ '!' ∧ s = first :: (mid ++ ']' :: after) ∧ t = .set false (ranges (first :: mid))) := by
  rw [set?.eq_def] at h
  split at h
  · obtain ⟨⟨body, after'⟩, hset, heq⟩ := Option.map_eq_some_iff.mp h
    obtain ⟨rfl, rfl⟩ := Prod.mk.inj heq
    obtain ⟨first, mid, rfl, hmid, rfl⟩ := setBody?_ok hset
    exact ⟨first, mid, hmid, .inl ⟨rfl, rfl⟩⟩
  · next hnot =>
    obtain ⟨⟨body, after'⟩, hset, heq⟩ := Option.map_eq_some_iff.mp h
    obtain ⟨rfl, rfl⟩ := Prod.mk.inj heq
    obtain ⟨first, mid, rfl, hmid, rfl⟩ := setBody?_ok hset
    exact ⟨first, mid, hmid, .inr ⟨fun hfirst => hnot _ (by rw [hfirst]), rfl, rfl⟩⟩

theorem Lexes.set {s : List Char} {t : Token} {ts : List Token} (h : set? s = some (t, after))
    (hts : Lexes after ts) : Lexes ('[' :: s) (t :: ts) := by
  obtain ⟨first, mid, hmid, ⟨rfl, rfl⟩ | ⟨hfirst, rfl, rfl⟩⟩ := set?_ok h
  · exact .outside hmid hts
  · exact .inside hfirst hmid hts

theorem after_set? {s : List Char} {t : Token} (h : set? s = some (t, after)) :
    after.length < s.length ∧ ∀ c ∈ after, c ∈ s := by
  obtain ⟨first, mid, -, ⟨rfl, -⟩ | ⟨-, rfl, -⟩⟩ := set?_ok h
  all_goals
    refine ⟨?_, fun c hc => by simp [hc]⟩
    simp only [List.length_cons, List.length_append]
    omega

theorem exists_of_cons_ok {t : Token} {x : Except PatternFault (List Token)} {ts : List Token}
    (h : (do return t :: (← x)) = Except.ok ts) : ∃ us, x = .ok us ∧ ts = t :: us := by
  cases x with
  | error e => cases h
  | ok us =>
    cases h
    exact ⟨us, rfl, rfl⟩

/-- What is read of a component other than `**`, or of an end of it. -/
theorem lexes_of_tokenize {limit : Nat} {prev : Option Char} {s : List Char} {ts : List Token}
    (h : tokenize limit prev s = .ok ts) (hlimit : s.length ≤ limit) (hslash : '/' ∉ s)
    (hprev : prev ≠ some '/') (hne : prev = none → s ≠ ['*', '*']) : Lexes s ts := by
  fun_induction tokenize limit prev s generalizing ts with
  | case1 =>
    cases h
    exact .nil
  | case2 prev s hs => exact absurd (List.length_eq_zero_iff.mp (Nat.le_zero.mp hlimit)) hs
  | case3 limit prev rest ih =>
    obtain ⟨us, hus, rfl⟩ := exists_of_cons_ok h
    obtain ⟨-, hslash⟩ := List.ne_and_not_mem_of_not_mem_cons hslash
    exact .any (ih hus (Nat.le_of_succ_le_succ hlimit) hslash (by decide) (by simp))
  | case4 | case6 | case9 => cases h
  | case5 limit prev after hstar hstarts =>
    -- `**` would have to be the whole component
    obtain ⟨hp, ha⟩ := Bool.and_eq_true_iff.mp hstarts
    have hnone : prev = none := by
      cases prev with
      | none => rfl
      | some c => exact absurd (congrArg some (of_decide_eq_true hp)) hprev
    cases after with
    | nil => exact absurd rfl (hne hnone)
    | cons c after =>
      have hc : c = '/' := of_decide_eq_true ha
      exact absurd (by simp [hc]) hslash
  | case7 limit prev rest hstar2 hstar ih =>
    obtain ⟨us, hus, rfl⟩ := exists_of_cons_ok h
    obtain ⟨-, hslash⟩ := List.ne_and_not_mem_of_not_mem_cons hslash
    exact .run (ih hus (Nat.le_of_succ_le_succ hlimit) hslash (by decide) (by simp))
  | case8 limit prev rest t after hset ih =>
    obtain ⟨us, hus, rfl⟩ := exists_of_cons_ok h
    obtain ⟨-, hslash⟩ := List.ne_and_not_mem_of_not_mem_cons hslash
    obtain ⟨hlen, hmem⟩ := after_set? hset
    rw [List.length_cons] at hlimit
    exact .set hset (ih hus (by omega) (fun hc => hslash (hmem _ hc)) (by decide) (by simp))
  | case10 limit prev rest c hany hstar hbracket ih =>
    obtain ⟨us, hus, rfl⟩ := exists_of_cons_ok h
    obtain ⟨hc, hslash⟩ := List.ne_and_not_mem_of_not_mem_cons hslash
    refine .char (by simpa using ⟨hstar, hany, hbracket⟩)
      (ih hus (Nat.le_of_succ_le_succ hlimit) hslash ?_ (by simp))
    exact fun heq => hc (Option.some.inj heq).symm

namespace Lexes

variable {s : List Char} {ts : List Token}

theorem folders_not_mem (h : Lexes s ts) : Token.folders ∉ ts := by
  induction h with
  | nil => simp
  | run _ ih | any _ ih | inside _ _ _ ih | outside _ _ ih | char _ _ ih => simpa using ih

/-- A component that starts with no point has no such token in front. -/
theorem head?_ne (h : Lexes s ts) (hs : s.head? ≠ some '.') : ts.head? ≠ some (.char '.') := by
  cases h with
  | nil | run | any | inside | outside => simp
  | char => simpa using hs

end Lexes

theorem matchRun_iff {f : List Char → Bool} {name : List Char} :
    Token.matchAll.matchRun f name = true ↔ ∃ skipped rest, name = skipped ++ rest ∧ f rest = true := by
  induction name with
  | nil =>
    rw [Token.matchAll.matchRun]
    constructor
    · intro h
      exact ⟨[], [], rfl, h⟩
    · rintro ⟨skipped, rest, heq, h⟩
      obtain ⟨rfl, rfl⟩ := List.nil_eq_append_iff.mp heq
      exact h
  | cons c name ih =>
    rw [Token.matchAll.matchRun, Bool.or_eq_true, ih]
    constructor
    · rintro (h | ⟨skipped, rest, rfl, h⟩)
      · exact ⟨[], c :: name, rfl, h⟩
      · exact ⟨c :: skipped, rest, rfl, h⟩
    · rintro ⟨skipped, rest, heq, h⟩
      cases skipped with
      | nil =>
        rw [List.nil_append] at heq
        exact .inl (heq ▸ h)
      | cons d skipped => exact .inr ⟨skipped, rest, (List.cons.inj heq).2, h⟩

/-- A token for one character, and the tokens after it. -/
theorem matchAll_cons_iff {t : Token} {ts : List Token} (ht : t ≠ .run) (ht' : t ≠ .folders) :
    Token.matchAll (t :: ts) name = true ↔
      ∃ c rest, name = c :: rest ∧ t.matchesChar c = true ∧ Token.matchAll ts rest = true := by
  cases t with
  | run => exact absurd rfl ht
  | folders => exact absurd rfl ht'
  | char | any | set => cases name <;> simp [Token.matchAll]

/-- **The tokens of a component match the names that it matches.** -/
theorem Lexes.matchAll_iff {s : List Char} {ts : List Token} (h : Lexes s ts) (name : List Char) :
    Token.matchAll ts name = true ↔ MatchesName s name := by
  induction h generalizing name with
  | nil => rw [matchesName_nil_iff, Token.matchAll, List.isEmpty_iff]
  | @run text ts h ih =>
    rw [matchesName_run_iff, Token.matchAll, matchRun_iff]
    simp only [ih]
  | @any text ts h ih =>
    rw [matchesName_any_iff, matchAll_cons_iff (by simp) (by simp)]
    simp [ih, Token.matchesChar]
  | @inside first body text ts hfirst hbody h ih =>
    rw [matchesName_inside_iff hfirst hbody, matchAll_cons_iff (by simp) (by simp)]
    simp only [ih, Token.matchesChar, ← any_ranges_iff, bne_iff_ne, ne_eq, Bool.not_eq_false]
  | @outside first body text ts hbody h ih =>
    rw [matchesName_outside_iff hbody, matchAll_cons_iff (by simp) (by simp)]
    simp only [ih, Token.matchesChar, ← any_ranges_iff, bne_iff_ne, ne_eq]
  | @char c text ts hc h ih =>
    rw [matchesName_char_iff hc, matchAll_cons_iff (by simp) (by simp)]
    simp [ih, Token.matchesChar]

/-! ### Components -/

theorem eq_map_char_of_mapM {ts : List Token} {cs : List Char} (h : ts.mapM Token.char? = some cs) :
    ts = cs.map .char := by
  induction ts generalizing cs with
  | nil =>
    obtain rfl : [] = cs := Option.some.inj h
    rfl
  | cons t ts ih =>
    rw [List.mapM_cons] at h
    obtain ⟨c, hc, h⟩ := Option.bind_eq_some_iff.mp h
    obtain ⟨ds, hds, h⟩ := Option.bind_eq_some_iff.mp h
    obtain rfl : c :: ds = cs := Option.some.inj h
    cases t with
    | char d =>
      obtain rfl : d = c := Option.some.inj hc
      rw [ih hds, List.map_cons]
    | any | run | folders | set => cases hc

theorem matchAll_map_char_iff {cs name : List Char} :
    Token.matchAll (cs.map .char) name = true ↔ cs = name := by
  induction cs generalizing name with
  | nil => rw [List.map_nil, Token.matchAll, List.isEmpty_iff, eq_comm]
  | cons c cs ih =>
    rw [List.map_cons, matchAll_cons_iff (by simp) (by simp)]
    constructor
    · rintro ⟨d, rest, rfl, hd, hrest⟩
      rw [ih.mp hrest, of_decide_eq_true hd]
    · rintro rfl
      exact ⟨c, cs, rfl, decide_eq_true rfl, ih.mpr rfl⟩

namespace Component

/-- A component as it is written, and what is read of it. -/
inductive Reads : List Char → Component → Prop
  | folders : Reads ['*', '*'] .folders
  | name {s : List Char} {ts : List Token} (hs : s ≠ ['*', '*']) (h : Lexes s ts) : Reads s (ofTokens ts)

/-- A component that leads to entries of a folder only: a name that is neither empty nor starts with
a point, or wildcards that do not start with a point. -/
def IsRegular : Component → Prop
  | .name s => s ≠ "" ∧ s.toList.head? ≠ some '.'
  | .wild ts => ts.head? ≠ some (.char '.')
  | .folders => True

theorem ofTokens_cases {ts : List Token} (h : Token.folders ∉ ts) :
    (∃ cs, ts = cs.map .char ∧ ofTokens ts = .name (String.ofList cs)) ∨ ofTokens ts = .wild ts := by
  have hne : ts ≠ [.folders] := fun heq => h (by simp [heq])
  rw [ofTokens, if_neg hne]
  split
  · next cs hcs => exact .inl ⟨cs, eq_map_char_of_mapM hcs, rfl⟩
  · exact .inr rfl

namespace Reads

variable {s : List Char} {c : Component}

theorem eq_folders_iff (h : Reads s c) : c = .folders ↔ s = ['*', '*'] := by
  cases h with
  | folders => simp
  | name hs h =>
    obtain ⟨cs, -, heq⟩ | heq := ofTokens_cases h.folders_not_mem
    · simp [heq, hs]
    · simp [heq, hs]

/-- **A component that is read matches the names that it matches as it is written.** -/
theorem matchesName_iff (h : Reads s c) (hs : s ≠ ['*', '*']) (name : String) :
    c.matchesName name = true ↔ MatchesName s name.toList := by
  cases h with
  | folders => exact absurd rfl hs
  | name _ h =>
    rw [← h.matchAll_iff]
    obtain ⟨cs, rfl, heq⟩ | heq := ofTokens_cases h.folders_not_mem
    · rw [heq, matchesName, decide_eq_true_iff, matchAll_map_char_iff, String.ext_iff,
        String.toList_ofList]
    · rw [heq, matchesName]

theorem isRegular (h : Reads s c) (hne : s ≠ []) (hs : s.head? ≠ some '.') : c.IsRegular := by
  cases h with
  | folders => trivial
  | name _ h =>
    have hhead := h.head?_ne hs
    obtain ⟨cs, rfl, heq⟩ | heq := ofTokens_cases h.folders_not_mem
    · rw [heq, IsRegular, String.toList_ofList]
      constructor
      · intro hcs
        have hcs : cs = [] := by simpa using congrArg String.toList hcs
        subst hcs
        exact hne (by cases h; rfl)
      · intro hcs
        exact hhead (by rw [List.head?_map, hcs]; rfl)
    · rw [heq]
      exact hhead

theorem all_isRegular {pieces : List (List Char)} {cs : List Component}
    (h : List.Forall₂ Reads pieces cs)
    (hpieces : ∀ piece ∈ pieces, piece ≠ [] ∧ piece.head? ≠ some '.') : ∀ c ∈ cs, c.IsRegular := by
  induction h with
  | nil => simp
  | cons hread _ ih =>
    obtain ⟨⟨hne, hhead⟩, hrest⟩ := List.forall_mem_cons.mp hpieces
    exact List.forall_mem_cons.mpr ⟨hread.isRegular hne hhead, ih hrest⟩

end Reads

end Component

/-! ### Patterns -/

theorem reads_of_tokens {piece : List Char} {ts : List Token} (h : tokens piece = .ok ts)
    (hslash : '/' ∉ piece) : Component.Reads piece (.ofTokens ts) := by
  by_cases hpiece : piece = ['*', '*']
  · subst hpiece
    obtain rfl : [.folders] = ts := Except.ok.inj h
    exact .folders
  · exact .name hpiece (lexes_of_tokenize h (Nat.le_refl _) hslash (by simp) fun _ => hpiece)

theorem reads_of_mapM {pieces : List (List Char)} {cs : List Component}
    (h : (pieces.mapM fun piece => do return Component.ofTokens (← tokens piece)) = .ok cs)
    (hslash : ∀ piece ∈ pieces, '/' ∉ piece) : List.Forall₂ Component.Reads pieces cs := by
  induction pieces generalizing cs with
  | nil =>
    obtain rfl : [] = cs := Except.ok.inj h
    exact .nil
  | cons piece pieces ih =>
    obtain ⟨hpiece, hpieces⟩ := List.forall_mem_cons.mp hslash
    rw [List.mapM_cons] at h
    cases hts : tokens piece with
    | error e => rw [hts] at h; cases h
    | ok ts =>
      rw [hts] at h
      cases hrest : pieces.mapM fun piece => do return Component.ofTokens (← tokens piece) with
      | error e =>
        rw [hrest] at h
        cases h
      | ok rest =>
        rw [hrest] at h
        obtain rfl : .ofTokens ts :: rest = cs := Except.ok.inj h
        exact .cons (reads_of_tokens hts hpiece) (ih hrest hpieces)

theorem not_mem_of_mem_splitOn {text piece : List Char} (h : piece ∈ text.splitOn c) : c ∉ piece := by
  induction text generalizing piece with
  | nil =>
    obtain rfl : piece = [] := by simpa [List.splitOn_nil] using h
    simp
  | cons d text ih =>
    rw [List.splitOn_cons_eq_if_modifyHead] at h
    split at h
    · rcases List.mem_cons.mp h with rfl | h
      · simp
      · exact ih h
    · next hd =>
      obtain ⟨q, qs, hqs⟩ := List.exists_cons_of_ne_nil (List.splitOn_ne_nil c text)
      rw [hqs, List.modifyHead_cons] at h
      rcases List.mem_cons.mp h with rfl | h
      · have hq : c ∉ q := ih (by simp [hqs])
        have hcd : c ≠ d := fun heq => hd (by simp [heq])
        simp [hcd, hq]
      · exact ih (by simp [hqs, h])

theorem nil_mem_splitOn_of_head? {text : List Char} (h : text.head? = some c) :
    [] ∈ text.splitOn c := by
  obtain ⟨rest, rfl⟩ := List.head?_eq_some_iff.mp h
  rw [List.splitOn_cons_eq_if_modifyHead]
  simp

/-- **A relative pattern is read component by component**, and then runs of `**` are made one. -/
theorem parse_ok {text : String} {p : Pattern} (h : parse text = .ok p)
    (hne : ∀ piece ∈ text.toList.splitOn '/', piece ≠ []) :
    p.absolute = false ∧ p.foldersOnly = false ∧
      ∃ cs, p.components = collapse cs ∧ List.Forall₂ Component.Reads (text.toList.splitOn '/') cs := by
  have hhead : text.toList.head? ≠ some '/' :=
    fun hhead => hne [] (nil_mem_splitOn_of_head? hhead) rfl
  have hlast : text.toList.getLast? ≠ some '/' := by
    intro hlast
    obtain ⟨rest, hrest⟩ := List.getLast?_eq_some_iff.mp hlast
    refine hne [] ?_ rfl
    rw [hrest, List.splitOn_append_cons_self, List.splitOn_nil]
    simp
  have hsplit : (text.toList.splitOn '/').getLast? ≠ some [] :=
    fun hlast => hne [] (List.mem_of_getLast? hlast) rfl
  cases htokens : tokens text.toList with
  | error e =>
    rw [parse, htokens] at h
    cases h
  | ok ts =>
    simp only [parse, htokens, hhead, hlast, hsplit, if_false, decide_false, Bool.false_and,
      Bool.false_eq_true] at h
    cases hcs : (text.toList.splitOn '/').mapM fun piece => do
        return Component.ofTokens (← tokens piece) with
    | error e =>
      rw [hcs] at h
      cases h
    | ok cs =>
      rw [hcs] at h
      obtain rfl : ⟨false, collapse cs, false⟩ = p := Except.ok.inj h
      exact ⟨rfl, rfl, cs, rfl, reads_of_mapM hcs fun piece => not_mem_of_mem_splitOn⟩

end Mt22.Pattern
