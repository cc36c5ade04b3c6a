import Mt22.Proofs.Json.Compact
import Mt22.Text.Classes

/-!
# JSON without its white space

`squeeze` takes from a text the blank characters that stand outside of string literals.  It knows a
string by its quotes, and inside of one a quote after a backslash does not count.

The two ways of writing a value differ in nothing else: what `squeeze` leaves of the indented text is
the compact text (`squeezes_pretty`).  The texts of a value are put together from pieces that start
and stop outside of strings (`Squeezes`), so that each piece is squeezed by itself.
-/

namespace Mt22.Json

open Number

/-- Where a character of a text stands. -/
inductive Zone where
  | outside
  /-- In a string literal. -/
  | inside
  /-- In a string literal, after a backslash. -/
  | escaped
deriving DecidableEq

/-- Where the next character stands. -/
def Zone.next : Zone → Char → Zone
  | outside, c => if c = '"' then inside else outside
  | inside, c => if c = '"' then outside else if c = '\\' then escaped else inside
  | escaped, _ => inside

/-- The characters of a text, less those that are blank and stand outside of strings. -/
def squeeze : Zone → List Char → List Char
  | _, [] => []
  | z, c :: s =>
    if z = .outside ∧ Text.isBlank c then squeeze (z.next c) s else c :: squeeze (z.next c) s

/-- A text without the blank characters that stand outside of strings. -/
def squeezed (text : String) : String := String.ofList (squeeze .outside text.toList)

theorem squeeze_append (z : Zone) (s t : List Char) :
    squeeze z (s ++ t) = squeeze z s ++ squeeze (s.foldl Zone.next z) t := by
  induction s generalizing z with
  | nil => rfl
  | cons c s ih =>
    rw [List.cons_append, squeeze, squeeze, List.foldl_cons, ih]
    split <;> rfl

/-! ### Pieces of a text -/

variable {s t u v : List Char}

/-- The text `s` starts and stops outside of strings, and `u` is left of it. -/
structure Squeezes (s u : List Char) : Prop where
  squeeze_eq : squeeze .outside s = u
  stops : s.foldl Zone.next .outside = .outside

theorem Squeezes.squeezed_eq {text left : String} (h : Squeezes text.toList left.toList) :
    squeezed text = left := by
  rw [squeezed, h.squeeze_eq, String.ofList_toList]

theorem Squeezes.nil : Squeezes [] [] := ⟨rfl, rfl⟩

theorem Squeezes.append (hs : Squeezes s u) (ht : Squeezes t v) : Squeezes (s ++ t) (u ++ v) where
  squeeze_eq := by rw [squeeze_append, hs.squeeze_eq, hs.stops, ht.squeeze_eq]
  stops := by rw [List.foldl_append, hs.stops, ht.stops]

theorem Squeezes.blank {c : Char} (h : Text.isBlank c = true) (hc : c ≠ '"') :
    Squeezes [c] [] where
  squeeze_eq := by rw [squeeze, if_pos ⟨rfl, h⟩, squeeze]
  stops := if_neg hc

theorem Squeezes.char {c : Char} (h : Text.isBlank c = false) (hc : c ≠ '"') :
    Squeezes [c] [c] where
  squeeze_eq := by rw [squeeze, if_neg (by simp [h]), squeeze]
  stops := if_neg hc

theorem Squeezes.plain (h : ∀ c ∈ s, Text.isBlank c = false ∧ c ≠ '"') : Squeezes s s := by
  induction s with
  | nil => exact .nil
  | cons c s ih =>
    obtain ⟨⟨hblank, hquote⟩, hs⟩ := List.forall_mem_cons.mp h
    exact (Squeezes.char hblank hquote).append (ih hs)

theorem Squeezes.intercalate {sep sep' : List Char} (hsep : Squeezes sep sep')
    {ss us : List (List Char)} (h : List.Forall₂ Squeezes ss us) :
    Squeezes (sep.intercalate ss) (sep'.intercalate us) := by
  induction h with
  | nil => exact .nil
  | @cons s u ss us hs hss ih =>
    cases hss with
    | nil => simpa using hs
    | cons hs' hss' =>
      rw [List.intercalate_cons_cons, List.intercalate_cons_cons]
      exact (hs.append hsep).append ih

/-! ### Strings and numbers -/

/-- An escape is kept as it is, and the string goes on after it. -/
theorem squeeze_escapeChar (c : Char) : squeeze .inside (escapeChar c) = escapeChar c ∧
    (escapeChar c).foldl Zone.next .inside = .inside := by
  by_cases hc : c ∈ escaped
  · have hall : escaped.all (fun c => squeeze .inside (escapeChar c) = escapeChar c ∧
        (escapeChar c).foldl Zone.next .inside = .inside) = true := by decide +kernel
    exact of_decide_eq_true (List.all_eq_true.mp hall c hc)
  · have hquote : c ≠ '"' := fun h => hc (by rw [h]; decide +kernel)
    have hslash : c ≠ '\\' := fun h => hc (by rw [h]; decide +kernel)
    rw [escapeChar_of_not_mem hc]
    exact ⟨if_neg (by simp), (if_neg hquote).trans (if_neg hslash)⟩

theorem squeeze_escapes (s : List Char) :
    squeeze .inside (s.flatMap escapeChar) = s.flatMap escapeChar ∧
      (s.flatMap escapeChar).foldl Zone.next .inside = .inside := by
  induction s with
  | nil => exact ⟨rfl, rfl⟩
  | cons c s ih =>
    obtain ⟨hsqueeze, hstops⟩ := squeeze_escapeChar c
    rw [List.flatMap_cons, squeeze_append, List.foldl_append, hsqueeze, hstops]
    exact ⟨congrArg _ ih.1, ih.2⟩

theorem squeezes_quote (text : String) : Squeezes (quote text).toList (quote text).toList := by
  obtain ⟨hsqueeze, hstops⟩ := squeeze_escapes text.toList
  rw [quote, String.toList_ofList]
  constructor
  · rw [List.cons_append, squeeze, if_neg (by decide)]
    show '"' :: squeeze .inside _ = _
    rw [squeeze_append, hsqueeze, hstops]
    rfl
  · rw [List.cons_append, List.foldl_cons]
    show List.foldl Zone.next .inside _ = _
    rw [List.foldl_append, hstops]
    rfl

theorem not_isBlank_of_isNumberChar {c : Char} (h : Decimal.isNumberChar c = true) :
    Text.isBlank c = false ∧ c ≠ '"' := by
  rw [Decimal.isNumberChar, Bool.or_eq_true] at h
  rcases h with h | h
  · rw [Char.isDigit, Bool.and_eq_true, decide_eq_true_eq, decide_eq_true_eq] at h
    have hlow : 48 ≤ c.toNat := h.1
    have hhigh : c.toNat ≤ 57 := h.2
    constructor
    · rw [Bool.eq_false_iff]
      intro hblank
      obtain ⟨r, hr, hr1, hr2⟩ := Text.inRanges_iff.mp hblank
      simp only [Text.blankRanges, List.mem_cons, List.not_mem_nil, or_false] at hr
      rcases hr with rfl | rfl | rfl | rfl | rfl | rfl | rfl | rfl | rfl | rfl <;> omega
    · rintro rfl
      exact absurd hlow (by decide)
  · simp only [List.contains_eq_mem, List.mem_cons, List.not_mem_nil, or_false,
      decide_eq_true_eq] at h
    rcases h with rfl | rfl | rfl | rfl | rfl <;> decide

theorem squeezes_number {v : Json} (hk : v.kind = .number) :
    Squeezes v.compact.toList v.compact.toList := by
  by_cases hv : v.shown = v
  · refine .plain fun c hc => not_isBlank_of_isNumberChar ?_
    exact List.all_eq_true.mp (all_isNumberChar_of_kind hk hv) c hc
  · -- what is not finite is written as `null`
    cases v with
    | float value =>
      cases value with
      | finite => exact absurd rfl hv
      | infinite negative => cases negative <;> exact ⟨by decide, by decide⟩
      | nan => exact ⟨by decide, by decide⟩
    | int => exact absurd rfl hv
    | _ => cases hk

/-! ### Containers -/

theorem squeezes_newLine (depth : Nat) : Squeezes (newLine depth).toList [] := by
  have hblanks : ∀ n, Squeezes (List.replicate n ' ') [] := by
    intro n
    induction n with
    | zero => exact .nil
    | succ n ih => exact (Squeezes.blank (c := ' ') (by decide) (by decide)).append ih
  simp only [newLine, String.toList_append, String.toList_ofList]
  exact (Squeezes.blank (c := '\n') (by decide) (by decide)).append (hblanks _)

/-- A container is squeezed to its brackets and its squeezed lines. -/
theorem squeezes_bracketed {left right : String} {lines : List String} {us : List (List Char)}
    (depth : Nat) (hleft : Squeezes left.toList left.toList)
    (hright : Squeezes right.toList right.toList)
    (h : List.Forall₂ Squeezes (lines.map String.toList) us) :
    Squeezes (bracketed left right depth lines).toList
      (left.toList ++ ([','].intercalate us ++ right.toList)) := by
  rw [bracketed]
  split
  · next hnil =>
    rw [List.isEmpty_iff.mp hnil] at h
    cases h
    rw [String.toList_append]
    exact hleft.append hright
  · have hcomma : Squeezes [','] [','] := .char (by decide) (by decide)
    have hsep : Squeezes ("," ++ newLine (depth + 1)).toList [','] := by
      rw [String.toList_append]
      exact hcomma.append (squeezes_newLine _)
    have hlines := Squeezes.intercalate hsep h
    have hall := (((hleft.append (squeezes_newLine (depth + 1))).append hlines).append
      (squeezes_newLine depth)).append hright
    simpa only [String.toList_append, String.toList_intercalate, List.append_nil,
      List.append_assoc] using hall

theorem indentedItems_eq_map (depth : Nat) (items : List Json) :
    indentedItems depth items = items.map (indented depth) := by
  induction items with
  | nil => rfl
  | cons v vs ih => rw [indentedItems, ih, List.map_cons]

theorem indentedMembers_eq_map (depth : Nat) (members : List (String × Json)) :
    indentedMembers depth members =
      members.map fun m => quote m.1 ++ ": " ++ m.2.indented depth := by
  induction members with
  | nil => rfl
  | cons m ms ih => rw [indentedMembers, ih, List.map_cons]

/-- **Squeezing an indented text gives the compact one**, at any depth. -/
theorem squeezes_indented (v : Json) (depth : Nat) :
    Squeezes (v.indented depth).toList v.compact.toList := by
  induction v using Json.induction generalizing depth with
  | null =>
    show Squeezes (compact null).toList (compact null).toList
    exact ⟨by decide, by decide⟩
  | bool value =>
    show Squeezes (compact (.bool value)).toList (compact (.bool value)).toList
    cases value <;> exact ⟨by decide, by decide⟩
  | int value => exact squeezes_number (v := .int value) rfl
  | float value => exact squeezes_number (v := .float value) rfl
  | str text => exact squeezes_quote text
  | arr items ih =>
    rw [indented, indentedItems_eq_map, toList_compact_arr]
    refine squeezes_bracketed depth ⟨by decide, by decide⟩ ⟨by decide, by decide⟩ ?_
    rw [List.map_map, List.forall₂_map_left_iff, List.forall₂_map_right_iff]
    exact List.forall₂_same.mpr fun v hv => ih v hv (depth + 1)
  | obj members ih =>
    rw [indented, indentedMembers_eq_map, toList_compact_obj]
    refine squeezes_bracketed depth ⟨by decide, by decide⟩ ⟨by decide, by decide⟩ ?_
    rw [List.map_map, List.forall₂_map_left_iff, List.forall₂_map_right_iff]
    refine List.forall₂_same.mpr fun m hm => ?_
    have hcolon : Squeezes [':', ' '] [':'] :=
      (Squeezes.char (c := ':') (by decide) (by decide)).append
        (Squeezes.blank (c := ' ') (by decide) (by decide))
    have hmember := ((squeezes_quote m.1).append hcolon).append (ih m hm (depth + 1))
    simpa [member] using hmember

theorem squeezes_pretty (v : Json) : Squeezes v.pretty.toList v.compact.toList :=
  squeezes_indented v 0

end Mt22.Json
