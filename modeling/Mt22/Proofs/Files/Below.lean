import Mathlib.Data.List.Lex
import Mt22.Proofs.Files.Write

/-!
# What is below a folder

A tree of entries is `Entry.isProper` if it could be on a disk: all names are names of files, and each
folder has its entries in the order of their names, none of them twice.  Then an entry is known by the
names that lead to it.

`Entry.descendants` lists what is below an entry together with these names.  It lists everything that
names lead to (`Entry.mem_descendants`), and its order is the lexicographic order of the names, in
which a folder comes right before what is in it (`Entry.pairwise_descendants`).
-/

namespace Mt22

/-- A name that an entry of a folder can have. -/
def isFileName (s : String) : Bool :=
  s ∉ ["", ".", ".."] && s.toList.all fun c => c ∉ ['/', '\x00']

theorem isFileName_iff {s : String} : isFileName s = true ↔
    s ∉ ["", ".", ".."] ∧ '/' ∉ s.toList ∧ '\x00' ∉ s.toList := by
  rw [isFileName, Bool.and_eq_true, decide_eq_true_iff, List.all_eq_true]
  constructor
  · rintro ⟨hs, hchars⟩
    exact ⟨hs, fun h => by simpa using hchars _ h, fun h => by simpa using hchars _ h⟩
  · rintro ⟨hs, hslash, hnul⟩
    refine ⟨hs, fun c hc => decide_eq_true ?_⟩
    have hc' : c ≠ '/' := fun h => hslash (h ▸ hc)
    have hc'' : c ≠ '\x00' := fun h => hnul (h ▸ hc)
    simp [hc', hc'']

namespace Entry

mutual

/-- Names are names of files, and the entries of each folder are in the order of their names. -/
def isProper : Entry → Bool
  | file _ => true
  | folder es => decide (es.Pairwise fun a b => a.1 < b.1) && areProper es

/-- Entries with names of files, each of them proper. -/
def areProper : List (String × Entry) → Bool
  | [] => true
  | (name, e) :: rest => isFileName name && e.isProper && areProper rest

end

theorem areProper_iff {es : List (String × Entry)} :
    areProper es = true ↔ ∀ p ∈ es, isFileName p.1 = true ∧ p.2.isProper = true := by
  induction es with
  | nil => simp [areProper]
  | cons p es ih => simp [areProper, ih]

theorem isProper_folder {es : List (String × Entry)} : (folder es).isProper = true ↔
    es.Pairwise (fun a b => a.1 < b.1) ∧ ∀ p ∈ es, isFileName p.1 = true ∧ p.2.isProper = true := by
  rw [isProper, Bool.and_eq_true, decide_eq_true_iff, areProper_iff]

/-- Induction on entries, with what is known of the entries of a folder. -/
@[elab_as_elim] theorem induction {motive : Entry → Prop} (file : ∀ bytes, motive (file bytes))
    (folder : ∀ es, (∀ p ∈ es, motive p.2) → motive (folder es)) : ∀ e, motive e
  | .file bytes => file bytes
  | .folder es => folder es fun p hp =>
    have : sizeOf p.2 < sizeOf es := by
      have hlt := List.sizeOf_lt_of_mem hp
      obtain ⟨n, e⟩ := p
      rw [Prod.mk.sizeOf_spec] at hlt
      dsimp only
      omega
    induction file folder p.2
termination_by e => sizeOf e

/-! ### Names -/

/-- In a proper folder a name has one entry at most. -/
theorem filter_entries {e : Entry} (h : e.isProper = true) (name : String) :
    (e.entries.filter fun p => name = p.1) = (e.get? name).toList.map fun c => (name, c) := by
  cases e with
  | file => rfl
  | folder es =>
    have hsorted := (isProper_folder.mp h).1
    rw [get?, entries]
    clear h
    induction es with
    | nil => rfl
    | cons p es ih =>
      obtain ⟨hfirst, hrest⟩ := List.pairwise_cons.mp hsorted
      by_cases hp : p.1 = name
      · subst hp
        have hnone : (es.filter fun q => p.1 = q.1) = [] := by
          rw [List.filter_eq_nil_iff]
          intro q hq heq
          have hlt := hfirst q hq
          rw [← of_decide_eq_true heq] at hlt
          exact absurd hlt (String.lt_irrefl _)
        rw [List.filter_cons_of_pos (by simp), List.find?_cons_of_pos (by simp), hnone]
        rfl
      · rw [List.filter_cons_of_neg (by simpa using Ne.symm hp),
          List.find?_cons_of_neg (by simpa using hp)]
        exact ih hrest

theorem get?_eq_some_iff {e c : Entry} {name : String} (h : e.isProper = true) :
    e.get? name = some c ↔ (name, c) ∈ e.entries := by
  have hmem : (name, c) ∈ e.entries ↔ (name, c) ∈ e.entries.filter fun p => name = p.1 := by
    simp
  rw [hmem, filter_entries h]
  simp

theorem isProper_of_mem {e c : Entry} {name : String} (h : e.isProper = true)
    (hmem : (name, c) ∈ e.entries) : isFileName name = true ∧ c.isProper = true := by
  cases e with
  | file => cases hmem
  | folder es => exact (isProper_folder.mp h).2 _ hmem

theorem walk?_cons_iff {e x : Entry} {name : String} {names : List String} (h : e.isProper = true) :
    e.walk? (name :: names) = some x ↔ ∃ c, (name, c) ∈ e.entries ∧ c.walk? names = some x := by
  rw [walk?, Option.bind_eq_some_iff]
  exact exists_congr fun c => and_congr_left fun _ => get?_eq_some_iff h

/-- Names that lead somewhere are names of files, and they lead to what is proper. -/
theorem isProper_of_walk? {e x : Entry} {names : List String} (h : e.isProper = true)
    (hwalk : e.walk? names = some x) :
    (∀ n ∈ names, isFileName n = true) ∧ x.isProper = true := by
  induction names generalizing e with
  | nil =>
    obtain rfl := Option.some.inj hwalk
    exact ⟨by simp, h⟩
  | cons n names ih =>
    obtain ⟨c, hmem, hwalk⟩ := (walk?_cons_iff h).mp hwalk
    obtain ⟨hn, hc⟩ := isProper_of_mem h hmem
    obtain ⟨hnames, hx⟩ := ih hc hwalk
    exact ⟨List.forall_mem_cons.mpr ⟨hn, hnames⟩, hx⟩

/-! ### Descendants -/

mutual

/-- Everything below an entry, with the names that lead to it; a folder comes before what is in
it. -/
def descendants : Entry → List (List String × Entry)
  | file _ => []
  | folder es => descendantsAll es

/-- Some entries of a folder, each with everything below it. -/
def descendantsAll : List (String × Entry) → List (List String × Entry)
  | [] => []
  | (name, e) :: rest =>
    ([name], e) :: (e.descendants.map (fun d => (name :: d.1, d.2)) ++ descendantsAll rest)

end

/-- An entry of a folder, and what is below it. -/
def branch (p : String × Entry) : List (List String × Entry) :=
  ([p.1], p.2) :: p.2.descendants.map fun d => (p.1 :: d.1, d.2)

theorem descendants_eq (e : Entry) : e.descendants = e.entries.flatMap branch := by
  cases e with
  | file => rfl
  | folder es =>
    rw [descendants, entries]
    induction es with
    | nil => rfl
    | cons p es ih => rw [descendantsAll, ih, List.flatMap_cons, branch, List.cons_append]

theorem mem_branch {p : String × Entry} {names : List String} {x : Entry} :
    (names, x) ∈ branch p ↔ ∃ rest, names = p.1 :: rest ∧
      (rest = [] ∧ x = p.2 ∨ (rest, x) ∈ p.2.descendants) := by
  rw [branch, List.mem_cons, List.mem_map]
  constructor
  · rintro (h | ⟨⟨rest, y⟩, hmem, h⟩)
    · obtain ⟨rfl, rfl⟩ := Prod.mk.inj h
      exact ⟨[], rfl, .inl ⟨rfl, rfl⟩⟩
    · obtain ⟨rfl, rfl⟩ := Prod.mk.inj h
      exact ⟨rest, rfl, .inr hmem⟩
  · rintro ⟨rest, rfl, ⟨rfl, rfl⟩ | hmem⟩
    · exact .inl rfl
    · exact .inr ⟨_, hmem, rfl⟩

/-- **The descendants of an entry are what names lead to**, the entry itself left out. -/
theorem mem_descendants {e x : Entry} {names : List String} (h : e.isProper = true) :
    (names, x) ∈ e.descendants ↔ names ≠ [] ∧ e.walk? names = some x := by
  induction e using Entry.induction generalizing names with
  | file bytes =>
    cases names <;> simp [descendants, walk?, get?, entries]
  | folder es ih =>
    rw [descendants_eq, List.mem_flatMap]
    constructor
    · rintro ⟨⟨n, c⟩, hmem, hx⟩
      obtain ⟨rest, rfl, hcase⟩ := mem_branch.mp hx
      refine ⟨by simp, (walk?_cons_iff h).mpr ⟨c, hmem, ?_⟩⟩
      rcases hcase with ⟨rfl, rfl⟩ | hrest
      · rfl
      · exact ((ih _ hmem (isProper_of_mem h hmem).2).mp hrest).2
    · rintro ⟨hne, hwalk⟩
      obtain ⟨n, rest, rfl⟩ := List.exists_cons_of_ne_nil hne
      obtain ⟨c, hmem, hwalk⟩ := (walk?_cons_iff h).mp hwalk
      refine ⟨(n, c), hmem, mem_branch.mpr ⟨rest, rfl, ?_⟩⟩
      by_cases hrest : rest = []
      · subst hrest
        exact .inl ⟨rfl, (Option.some.inj hwalk).symm⟩
      · exact .inr ((ih _ hmem (isProper_of_mem h hmem).2).mpr ⟨hrest, hwalk⟩)

/-- **Descendants are in the lexicographic order of their names.** -/
theorem pairwise_descendants {e : Entry} (h : e.isProper = true) :
    e.descendants.Pairwise fun a b => a.1 < b.1 := by
  induction e using Entry.induction with
  | file bytes => exact .nil
  | folder es ih =>
    obtain ⟨hsorted, hentries⟩ := isProper_folder.mp h
    rw [descendants_eq, List.pairwise_flatMap]
    constructor
    · -- a folder and what is in it
      rintro ⟨n, c⟩ hmem
      rw [branch, List.pairwise_cons, List.pairwise_map]
      constructor
      · intro d hd
        obtain ⟨⟨rest, x⟩, hrest, rfl⟩ := List.mem_map.mp hd
        have hne := ((mem_descendants (hentries _ hmem).2).mp hrest).1
        obtain ⟨m, ms, rfl⟩ := List.exists_cons_of_ne_nil hne
        exact List.cons_lt_cons_iff.mpr (.inr ⟨rfl, List.nil_lt_cons _ _⟩)
      · refine (ih _ hmem (hentries _ hmem).2).imp fun hlt => ?_
        exact List.cons_lt_cons_iff.mpr (.inr ⟨rfl, hlt⟩)
    · -- two entries of one folder
      refine hsorted.imp fun {p q} hlt => ?_
      rintro ⟨ns, x⟩ hx ⟨ms, y⟩ hy
      obtain ⟨rest, rfl, -⟩ := mem_branch.mp hx
      obtain ⟨rest', rfl, -⟩ := mem_branch.mp hy
      exact List.cons_lt_cons_iff.mpr (.inl hlt)

end Entry

end Mt22
