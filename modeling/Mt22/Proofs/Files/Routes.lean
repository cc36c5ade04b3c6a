import Mt22.Files.Find
import Mt22.Proofs.Files.Below
import Mt22.Proofs.Files.Matching

/-!
# The ways along which a pattern leads

Each component of a pattern goes down by one name, and `**` with the component after it by one name or
more.  A `Pattern.Route` is a list of these parts; the names of all parts together lead to a file that
is found.

`Pattern.routes` lists the routes from an entry to files.  These are all of them (`Pattern.mem_routes`),
in the lexicographic order of their parts (`Pattern.pairwise_routes`), and the files that are found are
those at their ends if all folders on the way can be listed (`FileSystem.find_eq`).
-/

namespace Mt22

/-! ### Spots -/

namespace Spot

/-- A spot is reached by names from the folder where a pattern starts, to which `base` leads. -/
structure At (base names : List String) (s : Spot) : Prop where
  names_eq : s.place.names = base ++ names
  shown : s.shown = if names = [] then none else some ("/".intercalate names)
  isFileName : ∀ n ∈ names, isFileName n = true
  name : ∀ n, names.getLast? = some n → s.name = n

variable {s : Spot} {base names : List String} {n : String} {closed : List (List String)}

/-- What is written of some names does not end in a separator. -/
theorem getLast?_intercalate (h : ∀ n ∈ names, Mt22.isFileName n = true) :
    ("/".intercalate names).toList.getLast? ≠ some '/' := by
  rcases List.eq_nil_or_concat names with rfl | ⟨init, n, rfl⟩
  · simp
  · obtain ⟨hn, hslash, -⟩ := isFileName_iff.mp (h n (by simp))
    have hn : n.toList ≠ [] := by
      simpa using (List.ne_and_not_mem_of_not_mem_cons hn).1
    have hlast : ("/".intercalate (init ++ [n])).toList.getLast? = n.toList.getLast? := by
      by_cases hinit : init = []
      · simp [hinit]
      · rw [String.intercalate_append_of_ne_nil hinit (by simp), String.intercalate_singleton,
          String.toList_append, List.getLast?_append_of_ne_nil _ hn]
    rw [List.concat_eq_append, hlast]
    exact fun heq => hslash (List.mem_of_getLast? heq)

theorem At.join (h : s.At base names) (n : String) : s.join n = "/".intercalate (names ++ [n]) := by
  rw [Spot.join, h.shown]
  by_cases hnames : names = []
  · rw [if_pos hnames, hnames, List.nil_append, String.intercalate_singleton]
  · rw [if_neg hnames, String.intercalate_append_of_ne_nil hnames (by simp),
      String.intercalate_singleton]
    exact if_neg (getLast?_intercalate h.isFileName)

theorem At.child {p : String × Entry} (h : s.At base names) (hp : Mt22.isFileName p.1 = true) :
    (s.child p).At base (names ++ [p.1]) where
  names_eq := by
    rw [← List.append_assoc, ← h.names_eq]
    simp [Spot.child, Place.names]
  shown := by rw [Spot.child, h.join, if_neg (by simp)]
  isFileName n hn := by
    rcases List.mem_append.mp hn with hn | hn
    · exact h.isFileName n hn
    · rw [List.mem_singleton.mp hn, hp]
  name n hn := by
    rw [List.getLast?_concat] at hn
    exact Option.some.inj hn

/-- Where a pattern starts, and from there on, all folders can be listed. -/
def Listed (closed : List (List String)) (base : List String) : Prop := ∀ ns ∈ closed, ¬ base <+: ns

theorem At.isClosed_eq (h : s.At base names) (hlisted : Listed closed base) :
    s.isClosed closed = false := by
  have hnot : s.place.names ∉ closed := by
    intro hmem
    refine hlisted _ hmem ?_
    rw [h.names_eq]
    exact List.prefix_append base names
  rw [isClosed, decide_eq_false hnot, Bool.and_false]

/-- A spot is where further names lead, and an entry is there. -/
structure Reached (base names : List String) (d : List String × Entry) (t : Spot) : Prop where
  ne_nil : d.1 ≠ []
  at_append : t.At base (names ++ d.1)
  here : t.place.here = d.2

theorem Reached.name_eq {d : List String × Entry} {t : Spot} (h : Reached base names d t) :
    t.name = d.1.getLast?.getD "" := by
  rcases List.eq_nil_or_concat d.1 with hnil | ⟨init, n, hn⟩
  · exact absurd hnil h.ne_nil
  · rw [List.concat_eq_append] at hn
    rw [h.at_append.name n (by rw [hn]; simp), hn]
    simp

theorem reached_below (h : s.At base names) (hlisted : Listed closed base)
    (he : s.place.here.isProper = true) :
    ∃ spots, s.below closed = spots.map .ok ∧
      List.Forall₂ (Reached base names) s.place.here.descendants spots := by
  obtain ⟨shown, e, above⟩ := s
  dsimp only [below] at he ⊢
  induction e using Entry.induction generalizing shown above names with
  | file bytes => exact ⟨[], rfl, .nil⟩
  | folder es ih =>
    obtain ⟨-, hentries⟩ := Entry.isProper_folder.mp he
    rw [Entry.descendants, belowEntry, h.isClosed_eq hlisted, if_neg Bool.false_ne_true]
    -- the entries of the folder one by one; the place of the folder stays
    have hall : ∀ rest, (∀ p ∈ rest, p ∈ es) →
        ∃ spots, belowEntries closed shown ⟨.folder es, above⟩ rest = spots.map .ok ∧
          List.Forall₂ (Reached base names) (Entry.descendantsAll rest) spots := by
      intro rest hrest
      induction rest with
      | nil => exact ⟨[], rfl, .nil⟩
      | cons p rest ihrest =>
        obtain ⟨n, e⟩ := p
        obtain ⟨hmem, hrest⟩ := List.forall_mem_cons.mp hrest
        obtain ⟨hn, he⟩ := hentries _ hmem
        have hchild := h.child (p := (n, e)) hn
        obtain ⟨inside, hinside, hreached⟩ := ih _ hmem _ _ hchild he
        obtain ⟨after, hafter, hrestReached⟩ := ihrest hrest
        refine ⟨(Spot.mk shown ⟨.folder es, above⟩).child (n, e) :: (inside ++ after), ?_, ?_⟩
        · rw [belowEntries, List.map_cons, List.map_append, ← hinside, ← hafter]
          rfl
        · rw [Entry.descendantsAll]
          refine .cons ⟨by simp, hchild, rfl⟩ (List.rel_append ?_ hrestReached)
          rw [List.forall₂_map_left_iff]
          refine hreached.imp ?_
          rintro ⟨ns, x⟩ t ⟨-, ht, hx⟩
          exact ⟨by simp, by simpa using ht, hx⟩
    exact hall es fun p hp => hp

end Spot

namespace Pattern

/-! ### Routes -/

/-- The parts of the names that components lead along: one name for each component, and at least one
for `**` with the component after it. -/
inductive Route : List Component → List (List String) → Prop
  | nil : Route [] []
  | step {c : Component} {cs : List Component} {n : String} {w : List (List String)}
      (hn : c.matchesName n = true) (h : Route cs w) : Route (c :: cs) ([n] :: w)
  | leap {c : Component} {cs : List Component} {init : List String} {n : String}
      {w : List (List String)} (hn : c.matchesName n = true) (h : Route cs w) :
      Route (.folders :: c :: cs) ((init ++ [n]) :: w)

/-- The entries of a folder that a component matches. -/
def steps (c : Component) (e : Entry) : List (List String × Entry) :=
  (e.entries.filter fun p => c.matchesName p.1).map fun p => ([p.1], p.2)

/-- What is below an entry and has a name that a component matches. -/
def leaps (c : Component) (e : Entry) : List (List String × Entry) :=
  e.descendants.filter fun d => c.matchesName (d.1.getLast?.getD "")

/-- The routes from an entry to files, each with the bytes of the file. -/
def routes : List Component → Entry → List (List (List String) × ByteArray)
  | [], .file bytes => [([], bytes)]
  | [], .folder _ => []
  | [.folders], _ => []
  | .folders :: c :: cs, e =>
    (leaps c e).flatMap fun d => (routes cs d.2).map fun r => (d.1 :: r.1, r.2)
  | c :: cs, e => (steps c e).flatMap fun d => (routes cs d.2).map fun r => (d.1 :: r.1, r.2)

variable {c : Component} {cs : List Component} {e x : Entry} {base names : List String}
  {w closed : List (List String)} {bytes : ByteArray}

theorem mem_steps (he : e.isProper = true) : (names, x) ∈ steps c e ↔
    ∃ n, names = [n] ∧ c.matchesName n = true ∧ e.walk? names = some x := by
  rw [steps, List.mem_map]
  constructor
  · rintro ⟨⟨n, y⟩, hmem, heq⟩
    obtain ⟨rfl, rfl⟩ := Prod.mk.inj heq
    obtain ⟨hmem, hn⟩ := List.mem_filter.mp hmem
    exact ⟨n, rfl, hn, (Entry.walk?_cons_iff he).mpr ⟨y, hmem, rfl⟩⟩
  · rintro ⟨n, rfl, hn, hwalk⟩
    obtain ⟨y, hmem, hy⟩ := (Entry.walk?_cons_iff he).mp hwalk
    obtain rfl : y = x := Option.some.inj hy
    exact ⟨(n, y), List.mem_filter.mpr ⟨hmem, hn⟩, rfl⟩

theorem mem_leaps (he : e.isProper = true) : (names, x) ∈ leaps c e ↔
    ∃ init n, names = init ++ [n] ∧ c.matchesName n = true ∧ e.walk? names = some x := by
  rw [leaps, List.mem_filter, Entry.mem_descendants he]
  constructor
  · rintro ⟨⟨hne, hwalk⟩, hn⟩
    rcases List.eq_nil_or_concat names with rfl | ⟨init, n, rfl⟩
    · exact absurd rfl hne
    · rw [List.concat_eq_append] at hn hwalk ⊢
      exact ⟨init, n, rfl, by simpa using hn, hwalk⟩
  · rintro ⟨init, n, rfl, hn, hwalk⟩
    exact ⟨⟨by simp, hwalk⟩, by simpa using hn⟩

/-- The routes whose first part leads to one of some entries. -/
theorem mem_flatMap_routes {first : List (List String × Entry)} :
    (w, bytes) ∈ (first.flatMap fun d => (routes cs d.2).map fun r => (d.1 :: r.1, r.2)) ↔
      ∃ part rest y, w = part :: rest ∧ (part, y) ∈ first ∧ (rest, bytes) ∈ routes cs y := by
  rw [List.mem_flatMap]
  constructor
  · rintro ⟨⟨part, y⟩, hmem, hw⟩
    obtain ⟨⟨rest, b⟩, hr, heq⟩ := List.mem_map.mp hw
    obtain ⟨rfl, rfl⟩ := Prod.mk.inj heq
    exact ⟨part, rest, y, rfl, hmem, hr⟩
  · rintro ⟨part, rest, y, rfl, hmem, hr⟩
    exact ⟨(part, y), hmem, List.mem_map.mpr ⟨_, hr, rfl⟩⟩

/-- Names lead to a file part by part. -/
theorem walk?_cons_flatten {part : List String} :
    e.walk? (part :: w).flatten = some x ↔ ∃ y, e.walk? part = some y ∧ y.walk? w.flatten = some x := by
  rw [List.flatten_cons, Entry.walk?_append, Option.bind_eq_some_iff]

/-- **The routes that are listed are those along which names lead to a file.** -/
theorem mem_routes (he : e.isProper = true) : (w, bytes) ∈ routes cs e ↔
    Route cs w ∧ e.walk? w.flatten = some (.file bytes) := by
  fun_induction routes cs e generalizing w with
  | case1 bytes' =>
    constructor
    · intro h
      obtain ⟨rfl, rfl⟩ := Prod.mk.inj (List.mem_singleton.mp h)
      exact ⟨.nil, rfl⟩
    · rintro ⟨hroute, hwalk⟩
      cases hroute with
      | nil =>
        obtain rfl := Entry.file.inj (Option.some.inj hwalk)
        exact List.mem_singleton.mpr rfl
  | case2 es =>
    constructor
    · intro h
      cases h
    · rintro ⟨hroute, hwalk⟩
      cases hroute with
      | nil => cases hwalk
  | case3 e =>
    constructor
    · intro h
      cases h
    · rintro ⟨hroute, -⟩
      cases hroute with
      | step hn => cases hn
  | case4 c cs e ih =>
    rw [mem_flatMap_routes]
    constructor
    · rintro ⟨part, rest, y, rfl, hmem, hr⟩
      obtain ⟨init, n, rfl, hn, hwalk⟩ := (mem_leaps he).mp hmem
      obtain ⟨hroute, hrest⟩ := (ih (init ++ [n], y) (Entry.isProper_of_walk? he hwalk).2).mp hr
      exact ⟨.leap hn hroute, walk?_cons_flatten.mpr ⟨y, hwalk, hrest⟩⟩
    · rintro ⟨hroute, hwalk⟩
      cases hroute with
      | step hn => cases hn
      | @leap _ _ init n w hn hroute =>
        obtain ⟨y, hy, hrest⟩ := walk?_cons_flatten.mp hwalk
        exact ⟨_, w, y, rfl, (mem_leaps he).mpr ⟨init, n, rfl, hn, hy⟩,
          (ih (init ++ [n], y) (Entry.isProper_of_walk? he hy).2).mpr ⟨hroute, hrest⟩⟩
  | case5 c cs e hlast hleap ih =>
    rw [mem_flatMap_routes]
    constructor
    · rintro ⟨part, rest, y, rfl, hmem, hr⟩
      obtain ⟨n, rfl, hn, hwalk⟩ := (mem_steps he).mp hmem
      obtain ⟨hroute, hrest⟩ := (ih ([n], y) (Entry.isProper_of_walk? he hwalk).2).mp hr
      exact ⟨.step hn hroute, walk?_cons_flatten.mpr ⟨y, hwalk, hrest⟩⟩
    · rintro ⟨hroute, hwalk⟩
      cases hroute with
      | leap => exact absurd rfl (hleap _ _ rfl)
      | @step _ _ n w hn hroute =>
        obtain ⟨y, hy, hrest⟩ := walk?_cons_flatten.mp hwalk
        exact ⟨_, w, y, rfl, (mem_steps he).mpr ⟨n, rfl, hn, hy⟩,
          (ih ([n], y) (Entry.isProper_of_walk? he hy).2).mpr ⟨hroute, hrest⟩⟩

theorem pairwise_steps (he : e.isProper = true) : (steps c e).Pairwise fun a b => a.1 < b.1 := by
  cases e with
  | file => exact .nil
  | folder es =>
    rw [steps, List.pairwise_map]
    refine ((Entry.isProper_folder.mp he).1.filter _).imp fun hlt => ?_
    exact List.cons_lt_cons_iff.mpr (.inl hlt)

theorem pairwise_flatMap_routes {first : List (List String × Entry)}
    (hfirst : first.Pairwise fun a b => a.1 < b.1)
    (h : ∀ d ∈ first, (routes cs d.2).Pairwise fun a b => a.1 < b.1) :
    (first.flatMap fun d => (routes cs d.2).map fun r => (d.1 :: r.1, r.2)).Pairwise
      fun a b => a.1 < b.1 := by
  rw [List.pairwise_flatMap]
  constructor
  · intro d hd
    rw [List.pairwise_map]
    exact (h d hd).imp fun hlt => List.cons_lt_cons_iff.mpr (.inr ⟨rfl, hlt⟩)
  · refine hfirst.imp fun {d d'} hlt => ?_
    rintro a ha b hb
    obtain ⟨r, -, rfl⟩ := List.mem_map.mp ha
    obtain ⟨r', -, rfl⟩ := List.mem_map.mp hb
    exact List.cons_lt_cons_iff.mpr (.inl hlt)

/-- **Routes are listed in the lexicographic order of their parts.** -/
theorem pairwise_routes (he : e.isProper = true) :
    (routes cs e).Pairwise fun a b => a.1 < b.1 := by
  fun_induction routes cs e with
  | case1 bytes => exact List.pairwise_singleton _ _
  | case2 | case3 => exact .nil
  | case4 c cs e ih =>
    refine pairwise_flatMap_routes ((Entry.pairwise_descendants he).filter _) ?_
    rintro ⟨part, y⟩ hmem
    obtain ⟨init, n, -, -, hwalk⟩ := (mem_leaps he).mp hmem
    exact ih _ (Entry.isProper_of_walk? he hwalk).2
  | case5 c cs e hlast hleap ih =>
    refine pairwise_flatMap_routes (pairwise_steps he) ?_
    rintro ⟨part, y⟩ hmem
    obtain ⟨n, -, -, hwalk⟩ := (mem_steps he).mp hmem
    exact ih _ (Entry.isProper_of_walk? he hwalk).2

/-! ### Following a pattern -/

theorem named?_eq {s : Spot} {n : String} (hn : (Component.name n).IsRegular) :
    s.named? n = (s.place.here.get? n).map fun x => s.child (n, x) := by
  obtain ⟨hempty, hhead⟩ := hn
  have hdot : n ≠ "." := fun h => hhead (by rw [h]; rfl)
  have hdots : n ≠ ".." := fun h => hhead (by rw [h]; rfl)
  rw [Spot.named?, if_neg hdot, if_neg hdots, if_neg hempty, Place.down?, Option.map_map]
  by_cases hs : s.isFolder = true
  · rw [if_neg (by simp [hs])]
    rfl
  · have hnone : s.place.here.get? n = none :=
      Entry.get?_of_not_isFolder (Bool.eq_false_iff.mpr hs)
    rw [if_pos (by simpa using hs), hnone]
    rfl

/-- **A component leads from a spot to the entries that it matches.** -/
theorem follow_step {s : Spot} (hs : s.At base names) (hlisted : Spot.Listed closed base)
    (he : s.place.here.isProper = true) (hc : c.IsRegular) (hne : c ≠ .folders)
    (cs : List Component) :
    ∃ spots, follow closed (c :: cs) s = spots.flatMap (follow closed cs) ∧
      List.Forall₂ (Spot.Reached base names) (steps c s.place.here) spots := by
  suffices h : follow closed (c :: cs) s =
      ((s.place.here.entries.filter fun p => c.matchesName p.1).map s.child).flatMap
        (follow closed cs) by
    refine ⟨_, h, ?_⟩
    rw [steps, List.forall₂_map_left_iff, List.forall₂_map_right_iff, List.forall₂_same]
    intro p hp
    exact ⟨by simp, hs.child (Entry.isProper_of_mem he (List.mem_of_mem_filter hp)).1, rfl⟩
  cases c with
  | folders => exact absurd rfl hne
  | name n =>
    rw [follow, named?_eq hc]
    show _ = ((s.place.here.entries.filter fun p => n = p.1).map s.child).flatMap (follow closed cs)
    rw [Entry.filter_entries he, List.map_map]
    cases s.place.here.get? n <;> rfl
  | wild ts =>
    have hdots : s.dots ts = [] := by
      rw [Spot.dots, if_neg]
      intro hhead
      exact hc (of_decide_eq_true (Bool.and_eq_true_iff.mp hhead).2)
    rw [follow, hs.isClosed_eq hlisted, if_neg Bool.false_ne_true, hdots, List.nil_append,
      Spot.children, List.filter_map]
    rfl

/-- **`**` and the component after it lead to what is below a spot and has a name that matches.** -/
theorem follow_leap {s : Spot} (hs : s.At base names) (hlisted : Spot.Listed closed base)
    (he : s.place.here.isProper = true) (c : Component) (cs : List Component) :
    ∃ spots, follow closed (.folders :: c :: cs) s = spots.flatMap (follow closed cs) ∧
      List.Forall₂ (Spot.Reached base names) (leaps c s.place.here) spots := by
  obtain ⟨spots, hspots, hreached⟩ := Spot.reached_below hs hlisted he
  refine ⟨spots.filter fun b => c.matchesName b.name, ?_, List.rel_filter ?_ hreached⟩
  · rw [follow, hspots, List.flatMap_map]
    clear hreached hspots
    induction spots with
    | nil => rfl
    | cons b spots ih =>
      rw [List.flatMap_cons, ih]
      by_cases hb : c.matchesName b.name = true <;> simp [hb]
  · intro d t ht
    show _ ↔ c.matchesName t.name = true
    rw [ht.name_eq]

/-- What is found at a spot: a file, or a folder that cannot be listed. -/
def found? : Except String Spot → Option (Except String String)
  | .ok s => if s.isFolder then none else s.shown.map .ok
  | .error folder => some (.error folder)

/-- What is found where components lead to. -/
def found (closed : List (List String)) (cs : List Component) (s : Spot) :
    List (Except String String) :=
  (follow closed cs s).filterMap found?

/-- Files found from the spots of a first part. -/
theorem found_flatMap {s : Spot} {all : List Component} {first : List (List String × Entry)}
    {spots : List Spot} (h : List.Forall₂ (Spot.Reached base names) first spots)
    (hfollow : follow closed all s = spots.flatMap (follow closed cs))
    (ih : ∀ d ∈ first, ∀ t, Spot.Reached base names d t → found closed cs t =
      (routes cs d.2).map fun r => .ok ("/".intercalate (names ++ d.1 ++ r.1.flatten))) :
    found closed all s =
      (first.flatMap fun d => (routes cs d.2).map fun r => (d.1 :: r.1, r.2)).map
        fun r => .ok ("/".intercalate (names ++ r.1.flatten)) := by
  rw [found, hfollow, List.filterMap_flatMap, List.map_flatMap]
  clear hfollow
  induction h with
  | nil => rfl
  | @cons d t first spots hdt _ ihrest =>
    obtain ⟨hd, hfirst⟩ := List.forall_mem_cons.mp ih
    rw [List.flatMap_cons, List.flatMap_cons, ihrest hfirst, List.map_map]
    show found closed cs t ++ _ = _
    rw [hd t hdt]
    simp only [List.append_assoc, Function.comp_def, List.flatten_cons]

/-- **The files that are found from a spot are those at the ends of the routes**, in their order. -/
theorem found_eq {s : Spot} (hs : s.At base names) (hlisted : Spot.Listed closed base)
    (he : s.place.here.isProper = true) (hcs : ∀ c ∈ cs, c.IsRegular)
    (hne : names = [] → cs ≠ []) :
    found closed cs s =
      (routes cs s.place.here).map fun r => .ok ("/".intercalate (names ++ r.1.flatten)) := by
  generalize hx : s.place.here = e at he
  fun_induction routes cs e generalizing s names with
  | case1 bytes =>
    have hnames : names ≠ [] := fun h => hne h rfl
    have hs' : s.isFolder = false := by rw [Spot.isFolder, hx]; rfl
    simp [found, found?, follow, hs', hs.shown, hnames]
  | case2 es =>
    have hs' : s.isFolder = true := by rw [Spot.isFolder, hx]; rfl
    simp [found, found?, follow, hs']
  | case3 e =>
    subst hx
    obtain ⟨spots, hspots, -⟩ := Spot.reached_below hs hlisted he
    rw [found, follow, hspots, List.filter_map, List.filterMap_map, List.filterMap_eq_nil_iff.mpr]
    · rfl
    · intro b hb
      exact if_pos (List.mem_filter.mp hb).2
  | case4 c cs e ih =>
    subst hx
    obtain ⟨spots, hfollow, hspots⟩ := follow_leap hs hlisted he c cs
    refine found_flatMap hspots hfollow fun d hd t ht => ?_
    obtain ⟨-, -, -, -, hwalk⟩ := (mem_leaps he).mp hd
    have hcs' : ∀ b ∈ cs, b.IsRegular := fun b hb => hcs b (by simp [hb])
    exact ih d ht.at_append hcs' (by simp [ht.ne_nil]) ht.here (Entry.isProper_of_walk? he hwalk).2
  | case5 c cs e hlast hleap ih =>
    subst hx
    have hc : c ≠ .folders := by
      rintro rfl
      cases cs with
      | nil => exact hlast rfl rfl
      | cons => exact hleap _ _ rfl rfl
    obtain ⟨hregular, hcs⟩ := List.forall_mem_cons.mp hcs
    obtain ⟨spots, hfollow, hspots⟩ := follow_step hs hlisted he hregular hc cs
    refine found_flatMap hspots hfollow fun d hd t ht => ?_
    obtain ⟨-, -, -, hwalk⟩ := (mem_steps he).mp hd
    exact ih d ht.at_append hcs (by simp [ht.ne_nil]) ht.here (Entry.isProper_of_walk? he hwalk).2

end Pattern

/-- The folder in which relative paths start can be listed, and so can all folders below it. -/
def FileSystem.listsHome (fs : FileSystem) : Bool :=
  fs.closed.all fun ns => !fs.homePlace.names.isPrefixOf ns

/-- **The files that match a pattern are those at the ends of its routes**, in their order. -/
theorem FileSystem.find_eq {fs : FileSystem} {p : Pattern} (hfs : fs.homePlace.here.isProper = true)
    (hlists : fs.listsHome = true) (habsolute : p.absolute = false)
    (hfolders : p.foldersOnly = false) (hne : p.components ≠ [])
    (hregular : ∀ c ∈ p.components, c.IsRegular) :
    fs.find p = (Pattern.routes p.components fs.homePlace.here).map
      fun r => .ok ("/".intercalate r.1.flatten) := by
  have hhome : Spot.At fs.homePlace.names [] ⟨none, fs.homePlace⟩ :=
    ⟨(List.append_nil _).symm, rfl, by simp, by simp⟩
  have hlisted : Spot.Listed fs.closed fs.homePlace.names := by
    intro ns hns hprefix
    have hnot := List.all_eq_true.mp hlists ns hns
    rw [List.isPrefixOf_iff_prefix.mpr hprefix] at hnot
    cases hnot
  have hfound := Pattern.found_eq hhome hlisted hfs hregular fun _ => hne
  have hfind : fs.find p = Pattern.found fs.closed p.components ⟨none, fs.homePlace⟩ := by
    rw [find, patternOrigin, habsolute, hfolders, Pattern.found]
    congr 1
  rw [hfind, hfound]
  rfl

end Mt22
