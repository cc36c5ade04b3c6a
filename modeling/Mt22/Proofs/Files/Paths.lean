import Mt22.Proofs.Files.Routes

/-!
# The paths that a pattern matches

`Pattern.MatchesPath` says which paths a pattern matches, on its components as they are written: `**`
stands for any number of folders, and each other component for one name.  Apart from patterns that end
in `**`, these are the paths to which the routes of the pattern lead (`Pattern.matchesPath_iff`).

One path may have several routes, and routes that are in order need not have their paths in order.  They
do if at most one component comes after the first `**` (`Pattern.Route.flatten_lt`).
-/

namespace Mt22.Pattern

variable {piece n : String} {pieces names : List String} {c : Component} {cs : List Component}
  {w w' : List (List String)}

/-- The components of a pattern, as they are written, match the names that lead to a file.  `**` stands
for any number of folders, and the last name is not one of a folder. -/
inductive MatchesPath : List String → List String → Prop
  | nil : MatchesPath [] []
  | name {piece n : String} {pieces names : List String} (hpiece : piece ≠ "**")
      (hn : MatchesName piece.toList n.toList) (h : MatchesPath pieces names) :
      MatchesPath (piece :: pieces) (n :: names)
  | noFolder {pieces names : List String} (h : MatchesPath pieces names) :
      MatchesPath ("**" :: pieces) names
  | folder {n : String} {pieces names : List String} (hne : names ≠ [])
      (h : MatchesPath ("**" :: pieces) names) : MatchesPath ("**" :: pieces) (n :: names)

theorem matchesPath_nil_iff : MatchesPath [] names ↔ names = [] := by
  constructor
  · intro h
    cases h
    rfl
  · rintro rfl
    exact .nil

theorem matchesPath_cons_iff (hpiece : piece ≠ "**") : MatchesPath (piece :: pieces) names ↔
    ∃ n rest, names = n :: rest ∧ MatchesName piece.toList n.toList ∧ MatchesPath pieces rest := by
  constructor
  · intro h
    cases h with
    | name _ hn h => exact ⟨_, _, rfl, hn, h⟩
    | noFolder | folder => exact absurd rfl hpiece
  · rintro ⟨n, rest, rfl, hn, h⟩
    exact .name hpiece hn h

theorem matchesPath_folders_iff : MatchesPath ("**" :: pieces) names ↔
    ∃ init rest, names = init ++ rest ∧ (init ≠ [] → rest ≠ []) ∧ MatchesPath pieces rest := by
  constructor
  · intro h
    generalize hps : "**" :: pieces = ps at h
    induction h with
    | nil => cases hps
    | name hpiece => exact absurd (List.cons.inj hps).1.symm hpiece
    | @noFolder _ names h =>
      obtain ⟨-, rfl⟩ := List.cons.inj hps
      exact ⟨[], names, rfl, by simp, h⟩
    | @folder n _ names hne h ih =>
      obtain ⟨init, rest, rfl, hrest, h⟩ := ih hps
      refine ⟨n :: init, rest, rfl, fun _ => ?_, h⟩
      by_cases hinit : init = []
      · simpa [hinit] using hne
      · exact hrest hinit
  · rintro ⟨init, rest, rfl, hrest, h⟩
    induction init with
    | nil => exact .noFolder h
    | cons n init ih =>
      have hne : rest ≠ [] := hrest (by simp)
      exact .folder (by simp [hne]) (ih fun _ => hne)

/-! ### Names on the way -/

theorem Route.flatten_ne_nil (h : Route cs w) (hcs : cs ≠ []) : w.flatten ≠ [] := by
  cases h with
  | nil => exact absurd rfl hcs
  | step | leap => simp

/-- Names that lead to a file by way of components, of which runs of `**` are made one. -/
def Leads (cs : List Component) (names : List String) : Prop :=
  ∃ w, Route (collapse cs) w ∧ w.flatten = names

theorem collapse_cons (c : Component) (cs : List Component) : collapse (c :: cs) =
    if c = .folders && (collapse cs).head? = some .folders then collapse cs else c :: collapse cs :=
  rfl

theorem collapse_cons_of_ne (hc : c ≠ .folders) : collapse (c :: cs) = c :: collapse cs := by
  rw [collapse_cons, if_neg (by simp [hc])]

theorem collapse_ne_nil (hcs : cs ≠ []) : collapse cs ≠ [] := by
  cases cs with
  | nil => exact absurd rfl hcs
  | cons c cs =>
    rw [collapse_cons]
    split
    · next h =>
      intro hnil
      simp [hnil] at h
    · simp

theorem leads_nil_iff : Leads [] names ↔ names = [] := by
  constructor
  · rintro ⟨w, hroute, rfl⟩
    cases hroute
    rfl
  · rintro rfl
    exact ⟨[], .nil, rfl⟩

theorem Leads.ne_nil (h : Leads cs names) (hcs : cs ≠ []) : names ≠ [] := by
  obtain ⟨w, hroute, rfl⟩ := h
  exact hroute.flatten_ne_nil (collapse_ne_nil hcs)

theorem leads_cons_iff (hc : c ≠ .folders) : Leads (c :: cs) names ↔
    ∃ n rest, names = n :: rest ∧ c.matchesName n = true ∧ Leads cs rest := by
  rw [Leads, collapse_cons_of_ne hc]
  constructor
  · rintro ⟨w, hroute, rfl⟩
    generalize hds : collapse cs = ds at hroute
    cases hroute with
    | step hn hroute => exact ⟨_, _, rfl, hn, _, hds ▸ hroute, rfl⟩
    | leap => exact absurd rfl hc
  · rintro ⟨n, rest, rfl, hn, w, hroute, rfl⟩
    exact ⟨[n] :: w, .step hn hroute, rfl⟩

/-- `**` adds any names in front. -/
theorem leads_folders_iff : Leads (.folders :: cs) names ↔
    ∃ init rest, names = init ++ rest ∧ rest ≠ [] ∧ Leads cs rest := by
  rw [Leads, collapse_cons]
  by_cases hhead : (collapse cs).head? = some .folders
  · -- the run of `**` that is made one takes these names as well
    rw [if_pos (by simp [hhead])]
    obtain ⟨ds, hds⟩ := List.head?_eq_some_iff.mp hhead
    constructor
    · rintro ⟨w, hroute, rfl⟩
      exact ⟨[], w.flatten, rfl, hroute.flatten_ne_nil (by simp [hds]), w, hroute, rfl⟩
    · rintro ⟨init, rest, rfl, -, w, hroute, rfl⟩
      rw [hds] at hroute ⊢
      cases hroute with
      | step hn => cases hn
      | @leap _ _ init' n w hn hroute =>
        exact ⟨((init ++ init') ++ [n]) :: w, .leap hn hroute, by simp⟩
  · rw [if_neg (by simp [hhead])]
    constructor
    · rintro ⟨w, hroute, rfl⟩
      generalize hds : collapse cs = ds at hroute
      cases hroute with
      | step hn => cases hn
      | @leap _ _ init n w hn hroute =>
        exact ⟨init, n :: w.flatten, by simp, by simp, [n] :: w, hds ▸ .step hn hroute, rfl⟩
    · rintro ⟨init, rest, rfl, hne, w, hroute, rfl⟩
      generalize hds : collapse cs = ds at hroute hhead ⊢
      cases hroute with
      | nil => exact absurd rfl hne
      | @step _ _ n w hn hroute => exact ⟨(init ++ [n]) :: w, .leap hn hroute, by simp⟩
      | leap => exact absurd rfl hhead

/-! ### Patterns -/

theorem getLast?_cons_ne_iff (h : piece = "**" → pieces ≠ []) :
    (piece :: pieces).getLast? ≠ some "**" ↔ pieces.getLast? ≠ some "**" := by
  cases pieces with
  | nil => simpa using h
  | cons => simp

/-- **A pattern that does not end in `**` matches the paths that its components lead along.** -/
theorem matchesPath_iff (h : List.Forall₂ (fun piece c => Component.Reads piece.toList c) pieces cs) :
    MatchesPath pieces names ∧ pieces.getLast? ≠ some "**" ↔ Leads cs names := by
  induction h generalizing names with
  | nil => simp [matchesPath_nil_iff, leads_nil_iff]
  | @cons piece c pieces cs hread h ih =>
    have hfolders : c = .folders ↔ piece = "**" := by
      rw [hread.eq_folders_iff, String.ext_iff]
      rfl
    by_cases hpiece : piece = "**"
    · obtain rfl := hfolders.mpr hpiece
      subst hpiece
      rw [matchesPath_folders_iff, leads_folders_iff]
      constructor
      · rintro ⟨⟨init, rest, rfl, -, hmatch⟩, hlast⟩
        have hne : pieces ≠ [] := by
          rintro rfl
          exact hlast rfl
        have hleads := ih.mp ⟨hmatch, (getLast?_cons_ne_iff fun _ => hne).mp hlast⟩
        have hcs : cs ≠ [] := by
          rintro rfl
          exact hne (List.forall₂_nil_right_iff.mp h)
        exact ⟨init, rest, rfl, hleads.ne_nil hcs, hleads⟩
      · rintro ⟨init, rest, rfl, hrest, hleads⟩
        obtain ⟨hmatch, hlast⟩ := ih.mpr hleads
        have hne : pieces ≠ [] := by
          rintro rfl
          exact hrest (matchesPath_nil_iff.mp hmatch)
        exact ⟨⟨init, rest, rfl, fun _ => hrest, hmatch⟩, (getLast?_cons_ne_iff fun _ => hne).mpr hlast⟩
    · have hchars : piece.toList ≠ ['*', '*'] := fun heq => hpiece (String.ext_iff.mpr heq)
      rw [matchesPath_cons_iff hpiece, leads_cons_iff (mt hfolders.mp hpiece),
        getLast?_cons_ne_iff fun h => absurd h hpiece]
      constructor
      · rintro ⟨⟨n, rest, rfl, hn, hmatch⟩, hlast⟩
        exact ⟨n, rest, rfl, (hread.matchesName_iff hchars n).mpr hn, ih.mp ⟨hmatch, hlast⟩⟩
      · rintro ⟨n, rest, rfl, hn, hleads⟩
        obtain ⟨hmatch, hlast⟩ := ih.mpr hleads
        exact ⟨⟨n, rest, rfl, (hread.matchesName_iff hchars n).mp hn, hmatch⟩, hlast⟩

/-- No component of a pattern is empty or starts with a point. -/
def IsPlain (text : String) : Prop :=
  ∀ piece ∈ pathComponents text, piece ≠ "" ∧ piece.toList.head? ≠ some '.'

instance : DecidablePred IsPlain := fun text =>
  inferInstanceAs (Decidable (∀ piece ∈ pathComponents text, _ ∧ _))

variable {text : String} {p : Pattern}

theorem mem_of_mem_collapse (h : c ∈ collapse cs) : c ∈ cs := by
  induction cs with
  | nil => cases h
  | cons d cs ih =>
    rw [collapse_cons] at h
    split at h
    · exact List.mem_cons_of_mem _ (ih h)
    · rcases List.mem_cons.mp h with rfl | h
      · exact List.mem_cons_self
      · exact List.mem_cons_of_mem _ (ih h)

/-- What is read of a plain pattern. -/
theorem parse_plain (hp : parse text = .ok p) (hplain : IsPlain text) :
    p.absolute = false ∧ p.foldersOnly = false ∧ ∃ cs, p.components = collapse cs ∧
      List.Forall₂ (fun piece c => Component.Reads piece.toList c) (pathComponents text) cs ∧
      cs ≠ [] ∧ ∀ c ∈ cs, c.IsRegular := by
  have hpiece : ∀ piece ∈ text.toList.splitOn '/', piece ≠ [] ∧ piece.head? ≠ some '.' := by
    intro piece hpiece
    obtain ⟨hne, hhead⟩ := hplain _ (List.mem_map_of_mem hpiece)
    exact ⟨by simpa [String.ext_iff] using hne, by simpa using hhead⟩
  obtain ⟨habsolute, hfolders, cs, hcs, hread⟩ := parse_ok hp fun piece h => (hpiece piece h).1
  refine ⟨habsolute, hfolders, cs, hcs, ?_, ?_, ?_⟩
  · rw [pathComponents, List.forall₂_map_left_iff]
    simpa only [String.toList_ofList] using hread
  · rintro rfl
    exact List.splitOn_ne_nil _ _ (List.forall₂_nil_right_iff.mp hread)
  · exact Component.Reads.all_isRegular hread hpiece

/-- **A plain pattern matches the paths of its routes, unless it ends in `**`.** -/
theorem matchesPath_iff_route (hp : parse text = .ok p) (hplain : IsPlain text) :
    MatchesPath (pathComponents text) names ∧ (pathComponents text).getLast? ≠ some "**" ↔
      ∃ w, Route p.components w ∧ w.flatten = names := by
  obtain ⟨-, -, cs, hcs, hread, -, -⟩ := parse_plain hp hplain
  rw [matchesPath_iff hread, hcs, Leads]

theorem components_ne_nil (hp : parse text = .ok p) (hplain : IsPlain text) : p.components ≠ [] := by
  obtain ⟨-, -, cs, hcs, -, hne, -⟩ := parse_plain hp hplain
  exact hcs ▸ collapse_ne_nil hne

theorem find_plain {fs : FileSystem} (hfs : fs.homePlace.here.isProper = true)
    (hlists : fs.listsHome = true) (hp : parse text = .ok p) (hplain : IsPlain text) :
    fs.find p =
      (routes p.components fs.homePlace.here).map fun r => .ok ("/".intercalate r.1.flatten) := by
  obtain ⟨habsolute, hfolders, cs, hcs, -, -, hregular⟩ := parse_plain hp hplain
  refine FileSystem.find_eq hfs hlists habsolute hfolders (components_ne_nil hp hplain) fun c hc => ?_
  exact hregular c (mem_of_mem_collapse (hcs ▸ hc))

/-! ### Order -/

/-- **With at most one component after the first `**`, routes in order have their paths in order.** -/
theorem Route.flatten_lt (h : Route cs w) (h' : Route cs w')
    (hcs : (cs.dropWhile (· ≠ .folders)).length ≤ 2) (hlt : w < w') : w.flatten < w'.flatten := by
  induction h generalizing w' with
  | nil =>
    cases h'
    exact absurd hlt (List.lt_irrefl _)
  | @step c cs n w hn h ih =>
    have hc : c ≠ .folders := by
      rintro rfl
      cases hn
    cases h' with
    | leap => exact absurd rfl hc
    | @step _ _ n' w' hn' h' =>
      rw [List.dropWhile_cons_of_pos (by simpa using hc)] at hcs
      rw [List.flatten_cons, List.flatten_cons, List.singleton_append, List.singleton_append]
      refine List.cons_lt_cons_iff.mpr ?_
      rcases List.cons_lt_cons_iff.mp hlt with hpart | ⟨hpart, hrest⟩
      · rcases List.cons_lt_cons_iff.mp hpart with hname | ⟨-, hnil⟩
        · exact .inl hname
        · exact absurd hnil (List.lt_irrefl _)
      · exact .inr ⟨(List.cons.inj hpart).1, ih h' hcs hrest⟩
  | @leap c cs init n w hn h ih =>
    -- the leap is the last part of both routes
    have hnil : cs = [] := by
      rw [List.dropWhile_cons_of_neg (by simp)] at hcs
      exact List.length_eq_zero_iff.mp (by simpa using hcs)
    subst hnil
    cases h
    cases h' with
    | step hn => cases hn
    | @leap _ _ init' n' w' hn' h' =>
      cases h'
      rw [List.flatten_singleton, List.flatten_singleton]
      rcases List.cons_lt_cons_iff.mp hlt with hpart | ⟨-, hnil⟩
      · exact hpart
      · exact absurd hnil (List.lt_irrefl _)

end Mt22.Pattern
