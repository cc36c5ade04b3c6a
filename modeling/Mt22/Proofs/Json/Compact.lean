import Mt22.Json.Basic
import Mt22.Proofs.Number.Layout
import Mt22.Proofs.Text.Parting

/-!
# Compact JSON is read in one way

The first character of a value tells its kind, a string ends at the first quote that is not escaped,
a number ends where its characters do, and a container ends at its bracket.  So the compact text of
a value, with anything after it that does not go on with a number, is read in one way only
(`parts_compact`).

What is not finite is written as `null`: the text shows of a value what `shown` leaves of it, and
nothing less (`compact_eq_iff`).
-/

namespace Mt22.Json

open Token Text Number

variable {x y : List Char}

/-! ### Strings -/

/-- The characters that are escaped. -/
def escaped : List Char := (List.range 32).map Char.ofNat ++ ['"', '\\']

theorem escapeChar_of_not_mem {c : Char} (h : c ∉ escaped) : escapeChar c = [c] := by
  have hge : ¬ c.toNat < 0x20 := by
    intro hlt
    refine h (List.mem_append_left _ (List.mem_map.mpr ⟨c.toNat, List.mem_range.mpr hlt, ?_⟩))
    exact Char.ofNat_toNat c
  unfold escapeChar
  split
  all_goals first
    | exact if_neg hge
    | exact absurd (by decide) h

theorem head_escapeChar {c : Char} (h : c ∈ escaped) : ∃ s, escapeChar c = '\\' :: s := by
  have hall : escaped.all (fun c => (escapeChar c).head? = some '\\') = true := by decide +kernel
  exact List.head?_eq_some_iff.mp (of_decide_eq_true (List.all_eq_true.mp hall c h))

/-- No escape is the start of another one. -/
theorem eq_of_prefix_escapeChar {c d : Char} (hc : c ∈ escaped) (hd : d ∈ escaped)
    (h : escapeChar c <+: escapeChar d) : c = d := by
  have hall : escaped.all (fun c => escaped.all fun d =>
      escapeChar c <+: escapeChar d → c = d) = true := by decide +kernel
  exact of_decide_eq_true (List.all_eq_true.mp (List.all_eq_true.mp hall c hc) d hd) h

theorem escapeChar_inj {c d : Char} (h : escapeChar c ++ x = escapeChar d ++ y) :
    c = d ∧ x = y := by
  by_cases hc : c ∈ escaped <;> by_cases hd : d ∈ escaped
  · obtain ⟨hcd, hxy⟩ := append_inj_of_prefix
      (fun hp => by rw [eq_of_prefix_escapeChar hc hd hp])
      (fun hp => by rw [eq_of_prefix_escapeChar hd hc hp]) h
    exact ⟨eq_of_prefix_escapeChar hc hd ⟨[], by rw [hcd, List.append_nil]⟩, hxy⟩
  · obtain ⟨s, hs⟩ := head_escapeChar hc
    rw [hs, escapeChar_of_not_mem hd] at h
    exact absurd (by rw [← (List.cons.inj h).1]; decide +kernel) hd
  · obtain ⟨s, hs⟩ := head_escapeChar hd
    rw [hs, escapeChar_of_not_mem hc] at h
    exact absurd (by rw [(List.cons.inj h).1]; decide +kernel) hc
  · rw [escapeChar_of_not_mem hc, escapeChar_of_not_mem hd] at h
    exact List.cons.inj h

theorem escapeChar_ne_quote {c : Char} {s t : List Char} : escapeChar c ++ s ≠ '"' :: t := by
  intro h
  by_cases hc : c ∈ escaped
  · obtain ⟨u, hu⟩ := head_escapeChar hc
    rw [hu] at h
    exact absurd (List.cons.inj h).1 (by decide)
  · rw [escapeChar_of_not_mem hc] at h
    exact hc (by rw [(List.cons.inj h).1]; decide +kernel)

theorem escapes_inj {s t : List Char}
    (h : s.flatMap escapeChar ++ '"' :: x = t.flatMap escapeChar ++ '"' :: y) : s = t ∧ x = y := by
  induction s generalizing t with
  | nil =>
    cases t with
    | nil => exact ⟨rfl, (List.cons.inj h).2⟩
    | cons d t =>
      rw [List.flatMap_cons, List.append_assoc] at h
      exact absurd h.symm escapeChar_ne_quote
  | cons c s ih =>
    cases t with
    | nil =>
      rw [List.flatMap_cons, List.append_assoc] at h
      exact absurd h escapeChar_ne_quote
    | cons d t =>
      rw [List.flatMap_cons, List.append_assoc, List.flatMap_cons, List.append_assoc] at h
      obtain ⟨rfl, htail⟩ := escapeChar_inj h
      obtain ⟨rfl, hxy⟩ := ih htail
      exact ⟨rfl, hxy⟩

/-- **A quoted string is read up to its closing quote.** -/
theorem quote_inj {s t : String} (h : (quote s).toList ++ x = (quote t).toList ++ y) :
    s = t ∧ x = y := by
  simp only [quote, String.toList_ofList, List.cons_append, List.append_assoc, List.nil_append,
    List.cons.injEq, true_and] at h
  obtain ⟨hst, hxy⟩ := escapes_inj h
  exact ⟨String.toList_inj.mp hst, hxy⟩

/-! ### What a text shows -/

mutual

/-- A value as its text shows it: what is not finite is left out. -/
def shown : Json → Json
  | null => null
  | bool value => bool value
  | int value => int value
  | float (.finite negative code) => float (.finite negative code)
  | float (.infinite _) => null
  | float .nan => null
  | str text => str text
  | arr items => arr (shownItems items)
  | obj members => obj (shownMembers members)

def shownItems : List Json → List Json
  | [] => []
  | v :: vs => v.shown :: shownItems vs

def shownMembers : List (String × Json) → List (String × Json)
  | [] => []
  | (k, v) :: rest => (k, v.shown) :: shownMembers rest

end

theorem shownItems_eq_map (items : List Json) : shownItems items = items.map shown := by
  induction items with
  | nil => rfl
  | cons v vs ih => rw [shownItems, ih, List.map_cons]

theorem shownMembers_eq_map (members : List (String × Json)) :
    shownMembers members = members.map fun m => (m.1, m.2.shown) := by
  induction members with
  | nil => rfl
  | cons m ms ih => rw [shownMembers, ih, List.map_cons]

theorem compactItems_eq_map (items : List Json) : compactItems items = items.map compact := by
  induction items with
  | nil => rfl
  | cons v vs ih => rw [compactItems, ih, List.map_cons]

theorem compactMembers_eq_map (members : List (String × Json)) :
    compactMembers members = members.map fun m => quote m.1 ++ ":" ++ m.2.compact := by
  induction members with
  | nil => rfl
  | cons m ms ih => rw [compactMembers, ih, List.map_cons]

theorem sizeOf_member {m : String × Json} {members : List (String × Json)} (hm : m ∈ members) :
    sizeOf m.2 < sizeOf members := by
  have hlt := List.sizeOf_lt_of_mem hm
  obtain ⟨k, v⟩ := m
  rw [Prod.mk.sizeOf_spec] at hlt
  dsimp only
  omega

/-- Induction on values, with what is known of the values in a container. -/
@[elab_as_elim] theorem induction {motive : Json → Prop} (null : motive null)
    (bool : ∀ value, motive (bool value)) (int : ∀ value, motive (int value))
    (float : ∀ value, motive (float value)) (str : ∀ text, motive (str text))
    (arr : ∀ items, (∀ v ∈ items, motive v) → motive (arr items))
    (obj : ∀ members, (∀ m ∈ members, motive m.2) → motive (obj members)) : ∀ v, motive v
  | .null => null
  | .bool value => bool value
  | .int value => int value
  | .float value => float value
  | .str text => str text
  | .arr items => arr items fun v _ => induction null bool int float str arr obj v
  | .obj members => obj members fun m hm =>
    have := sizeOf_member hm
    induction null bool int float str arr obj m.2
termination_by v => sizeOf v

/-- The text of a value shows no more than `shown`. -/
theorem compact_shown (v : Json) : v.shown.compact = v.compact := by
  induction v using Json.induction with
  | null | bool | int | str => rfl
  | float value => rcases value with ⟨_, _⟩ | ⟨_ | _⟩ | _ <;> rfl
  | arr items ih =>
    have hitems : items.map (compact ∘ shown) = items.map compact := List.map_congr_left ih
    rw [shown, compact, compact, compactItems_eq_map, compactItems_eq_map, shownItems_eq_map,
      List.map_map, hitems]
  | obj members ih =>
    have hmembers : members.map ((fun m => quote m.1 ++ ":" ++ m.2.compact) ∘
        fun m => (m.1, m.2.shown)) = members.map fun m => quote m.1 ++ ":" ++ m.2.compact :=
      List.map_congr_left fun m hm => congrArg (quote m.1 ++ ":" ++ ·) (ih m hm)
    rw [shown, compact, compact, compactMembers_eq_map, compactMembers_eq_map, shownMembers_eq_map,
      List.map_map, hmembers]

theorem shown_shown (v : Json) : v.shown.shown = v.shown := by
  induction v using Json.induction with
  | null | bool | int | str => rfl
  | float value => cases value <;> rfl
  | arr items ih =>
    rw [shown, shown, shownItems_eq_map, shownItems_eq_map, List.map_map]
    exact congrArg arr (List.map_congr_left ih)
  | obj members ih =>
    rw [shown, shown, shownMembers_eq_map, shownMembers_eq_map, List.map_map]
    exact congrArg obj (List.map_congr_left fun m hm => congrArg (Prod.mk m.1) (ih m hm))

/-! ### Kinds -/

/-- The kinds of values that their first characters tell apart. -/
inductive Kind where
  | null | bool | number | str | arr | obj
deriving DecidableEq

def kind : Json → Kind
  | null => .null
  | bool _ => .bool
  | int _ | float _ => .number
  | str _ => .str
  | arr _ => .arr
  | obj _ => .obj

/-- The kind of the values that start with a character, if there are any. -/
def Kind.ofChar? : Char → Option Kind
  | 'n' => some .null
  | 't' | 'f' => some .bool
  | '"' => some .str
  | '[' => some .arr
  | '\x7b' => some .obj
  | c => if Decimal.isNumberChar c then some .number else none

theorem toList_compact_arr (items : List Json) : (arr items).compact.toList =
    '[' :: ([','].intercalate (items.map fun v => v.compact.toList) ++ [']']) := by
  rw [compact, compactItems_eq_map, String.toList_append, String.toList_append,
    String.toList_intercalate, List.map_map]
  rfl

/-- The text of a member. -/
def member (m : String × Json) : List Char := (quote m.1).toList ++ ':' :: m.2.compact.toList

theorem toList_compact_obj (members : List (String × Json)) : (obj members).compact.toList =
    '\x7b' :: ([','].intercalate (members.map member) ++ ['\x7d']) := by
  have hmembers : members.map (String.toList ∘ fun m => quote m.1 ++ ":" ++ m.2.compact) =
      members.map member := by
    refine List.map_congr_left fun m _ => ?_
    rw [Function.comp, String.toList_append, String.toList_append, List.append_assoc]
    rfl
  rw [compact, compactMembers_eq_map, String.toList_append, String.toList_append,
    String.toList_intercalate, List.map_map, hmembers]
  rfl

/-! ### Numbers -/

/-- A value whose text is a number is an integer or finite. -/
theorem number_cases {v : Json} (hk : v.kind = .number) (hv : v.shown = v) :
    (∃ n, v = int n) ∨ ∃ negative code, v = float (.finite negative code) := by
  cases v with
  | int n => exact .inl ⟨n, rfl⟩
  | float value =>
    cases value with
    | finite negative code => exact .inr ⟨negative, code, rfl⟩
    | infinite | nan => cases hv
  | _ => cases hk

theorem all_isNumberChar_of_kind {v : Json} (hk : v.kind = .number) (hv : v.shown = v) :
    v.compact.toList.all Decimal.isNumberChar = true := by
  obtain ⟨n, rfl⟩ | ⟨negative, code, rfl⟩ := number_cases hk hv
  · refine List.all_eq_true.mpr fun c hc => ?_
    rcases mem_toString_int hc with h | rfl
    · exact Decimal.isNumberChar_of_isDigit h
    · rfl
  · obtain ⟨t, q, ht, hq, -⟩ := layout.write_finite negative code
    change (layout.write _).toList.all _ = true
    rw [ht, List.all_append, hq.all_isNumberChar]
    cases negative <;> rfl

/-- Numbers of one text are the same, and no integer has the text of another number. -/
theorem number_inj {v w : Json} (hkv : v.kind = .number) (hkw : w.kind = .number)
    (hv : v.shown = v) (hw : w.shown = w) (h : v.compact = w.compact) : v = w := by
  have hmark : ∀ n negative code, (int n).compact ≠ (float (.finite negative code)).compact := by
    intro n negative code heq
    obtain ⟨t, q, ht, hq, -⟩ := layout.write_finite negative code
    obtain ⟨c, hc, hmark⟩ := hq.exists_mark
    refine hmark (mem_toString_int (v := n) ?_)
    have htext : (toString n).toList = _ := (congrArg String.toList heq).trans ht
    rw [htext]
    exact List.mem_append_right _ hc
  obtain ⟨n, rfl⟩ | ⟨a, c, rfl⟩ := number_cases hkv hv <;>
    obtain ⟨m, rfl⟩ | ⟨b, d, rfl⟩ := number_cases hkw hw
  · exact congrArg int (toString_int_inj h)
  · exact absurd h (hmark _ _ _)
  · exact absurd h.symm (hmark _ _ _)
  · exact congrArg float (Layout.write_finite_inj h)

theorem compact_ne_nil_of_kind {v : Json} (hk : v.kind = .number) (hv : v.shown = v) :
    v.compact.toList ≠ [] := by
  obtain ⟨n, rfl⟩ | ⟨negative, code, rfl⟩ := number_cases hk hv
  · intro hnil
    have hread := readInteger?_toString n
    rw [show (toString n).toList = [] from hnil] at hread
    cases hread
  · obtain ⟨t, q, ht, hq, -⟩ := layout.write_finite negative code
    obtain ⟨c, s, rfl, -⟩ := hq.head
    change (layout.write _).toList ≠ []
    rw [ht]
    simp

/-! ### Values -/

theorem Kind.ofChar?_of_isNumberChar {c : Char} (h : Decimal.isNumberChar c = true) :
    Kind.ofChar? c = some .number := by
  unfold Kind.ofChar?
  split
  all_goals first
    | exact absurd h (by decide)
    | exact if_pos h

/-- **The first character of a text tells its kind.** -/
theorem head_compact {v : Json} (hv : v.shown = v) :
    ∃ c s, v.compact.toList = c :: s ∧ Kind.ofChar? c = some v.kind := by
  by_cases hk : v.kind = .number
  · obtain ⟨c, s, hcs⟩ := List.exists_cons_of_ne_nil (compact_ne_nil_of_kind hk hv)
    have hall := all_isNumberChar_of_kind hk hv
    rw [hcs, List.all_cons, Bool.and_eq_true] at hall
    exact ⟨c, s, hcs, (Kind.ofChar?_of_isNumberChar hall.1).trans (congrArg some hk.symm)⟩
  · cases v with
    | null => exact ⟨'n', _, rfl, rfl⟩
    | bool value => cases value <;> exact ⟨_, _, rfl, rfl⟩
    | int | float => exact absurd rfl hk
    | str text => exact ⟨'"', _, String.toList_ofList, rfl⟩
    | arr items => exact ⟨'[', _, toList_compact_arr items, rfl⟩
    | obj members => exact ⟨'\x7b', _, toList_compact_obj members, rfl⟩

theorem kind_eq_of_append {v w : Json} (hv : v.shown = v) (hw : w.shown = w)
    (h : v.compact.toList ++ x = w.compact.toList ++ y) : v.kind = w.kind := by
  obtain ⟨c, s, hc, hkc⟩ := head_compact hv
  obtain ⟨d, t, hd, hkd⟩ := head_compact hw
  rw [hc, hd] at h
  rw [(List.cons.inj h).1, hkd] at hkc
  exact (Option.some.inj hkc).symm

/-- No text starts with a closing bracket. -/
theorem compact_ne_cons {v : Json} {c : Char} (hv : v.shown = v) (hc : Kind.ofChar? c = none) :
    v.compact.toList ++ x ≠ c :: y := by
  intro h
  obtain ⟨d, s, hd, hk⟩ := head_compact hv
  rw [hd] at h
  rw [(List.cons.inj h).1, hc] at hk
  cases hk

theorem member_ne_cons {m : String × Json} : member m ++ x ≠ '\x7d' :: y := by
  intro h
  simp only [member, quote, String.toList_ofList, List.cons_append, List.cons.injEq] at h
  exact absurd h.1 (by decide)

theorem parts_member {m n : String × Json}
    (h : Parts (Stops Decimal.isNumberChar) (fun v => v.compact.toList) m.2 n.2) :
    Parts (Stops Decimal.isNumberChar) member m n := by
  intro x y hx hy heq
  rw [member, member, List.append_assoc, List.append_assoc] at heq
  obtain ⟨hkey, htail⟩ := quote_inj heq
  obtain ⟨hvalue, hxy⟩ := h x y hx hy (List.cons.inj htail).2
  exact ⟨Prod.ext hkey hvalue, hxy⟩

theorem shown_of_mem_arr {items : List Json} (h : (arr items).shown = arr items) :
    ∀ v ∈ items, v.shown = v := by
  rw [shown, shownItems_eq_map, arr.injEq] at h
  exact List.map_inj_left.mp (h.trans (List.map_id items).symm)

theorem shown_of_mem_obj {members : List (String × Json)} (h : (obj members).shown = obj members) :
    ∀ m ∈ members, m.2.shown = m.2 := by
  rw [shown, shownMembers_eq_map, obj.injEq] at h
  have hmembers := List.map_inj_left.mp (h.trans (List.map_id members).symm)
  exact fun m hm => congrArg Prod.snd (hmembers m hm)

/-- **The compact text of a value is read in one way**, with anything after it that does not go on
with a number. -/
theorem parts_compact (v : Json) : v.shown = v → ∀ w : Json, w.shown = w →
    Parts (Stops Decimal.isNumberChar) (fun v => v.compact.toList) v w := by
  have hnumber : ∀ {v w : Json}, v.kind = .number → v.shown = v → w.shown = w →
      Parts (Stops Decimal.isNumberChar) (fun v => v.compact.toList) v w := by
    intro v w hk hv hw x y hx hy h
    have hk' := (kind_eq_of_append hv hw h).symm.trans hk
    obtain ⟨htext, hxy⟩ := append_inj_of_stops (all_isNumberChar_of_kind hk hv)
      (all_isNumberChar_of_kind hk' hw) hx hy h
    exact ⟨number_inj hk hk' hv hw (String.toList_inj.mp htext), hxy⟩
  induction v using Json.induction with
  | null =>
    intro hv w hw x y hx hy h
    have hk := kind_eq_of_append hv hw h
    cases w with
    | null => exact ⟨rfl, List.append_cancel_left h⟩
    | _ => cases hk
  | bool value =>
    intro hv w hw x y hx hy h
    have hk := kind_eq_of_append hv hw h
    cases w with
    | bool value' =>
      cases value <;> cases value'
      · exact ⟨rfl, List.append_cancel_left h⟩
      · exact absurd (List.cons.inj h).1 (by decide)
      · exact absurd (List.cons.inj h).1 (by decide)
      · exact ⟨rfl, List.append_cancel_left h⟩
    | _ => cases hk
  | int value => exact fun hv w hw => hnumber rfl hv hw
  | float value => exact fun hv w hw => hnumber rfl hv hw
  | str text =>
    intro hv w hw x y hx hy h
    have hk := kind_eq_of_append hv hw h
    cases w with
    | str text' =>
      obtain ⟨rfl, hxy⟩ := quote_inj h
      exact ⟨rfl, hxy⟩
    | _ => cases hk
  | arr items ih =>
    intro hv w hw x y hx hy h
    have hk := kind_eq_of_append hv hw h
    cases w with
    | arr items' =>
      simp only [toList_compact_arr, List.cons_append, List.append_assoc, List.cons.injEq,
        true_and, List.nil_append] at h
      have hshown := shown_of_mem_arr hv
      have hshown' := shown_of_mem_arr hw
      obtain ⟨rfl, hxy⟩ := separated_inj (fun _ => stops_cons rfl) (fun _ => stops_cons rfl)
        (by decide) (fun a ha s t => compact_ne_cons (hshown a ha) rfl)
        (fun a ha s t => compact_ne_cons (hshown' a ha) rfl)
        (fun a ha b hb => ih a ha (hshown a ha) b (hshown' b hb)) h
      exact ⟨rfl, hxy⟩
    | _ => cases hk
  | obj members ih =>
    intro hv w hw x y hx hy h
    have hk := kind_eq_of_append hv hw h
    cases w with
    | obj members' =>
      simp only [toList_compact_obj, List.cons_append, List.append_assoc, List.cons.injEq,
        true_and, List.nil_append] at h
      have hshown := shown_of_mem_obj hv
      have hshown' := shown_of_mem_obj hw
      obtain ⟨rfl, hxy⟩ := separated_inj (fun _ => stops_cons rfl) (fun _ => stops_cons rfl)
        (by decide) (fun _ _ _ _ => member_ne_cons) (fun _ _ _ _ => member_ne_cons)
        (fun a ha b hb => parts_member (ih a ha (hshown a ha) b.2 (hshown' b hb))) h
      exact ⟨rfl, hxy⟩
    | _ => cases hk

/-- **Two values have one text exactly if they show the same.** -/
theorem compact_eq_iff {v w : Json} : v.compact = w.compact ↔ v.shown = w.shown := by
  constructor
  · intro h
    refine (parts_compact v.shown (shown_shown v) w.shown (shown_shown w) [] [] (stops_nil _)
      (stops_nil _) ?_).1
    dsimp only
    rw [compact_shown, compact_shown, h]
  · intro h
    rw [← compact_shown v, h, compact_shown]

end Mt22.Json
