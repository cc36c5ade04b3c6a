import Mt22.Proofs.Files.Paths
import Mt22.Proofs.Script.Loading

/-!
# Scripts found by a pattern

A pattern is followed from the folder where relative paths start, and the script of each file that is
found is loaded.  If the tree there could be on a disk, its files are texts and its folders can be
listed, a plain pattern finds the scripts at the ends of its routes, in the order of the routes
(`Script.discover_eq`).

As a set, these are the scripts of the files whose paths match, except that no file matches a pattern
that ends in `**` (`Script.discover_finds`).  As a list, they are in the order of their routes and not
always in the order of their paths, and a file to which two routes lead is there twice
(`Script.discover_in_route_order`).
-/

namespace Mt22

/-! ### Texts -/

namespace Entry

mutual

/-- All files of the tree are texts. -/
def hasTexts : Entry → Bool
  | file bytes => (String.fromUTF8? bytes).isSome
  | folder es => haveTexts es

/-- All files of some entries are texts. -/
def haveTexts : List (String × Entry) → Bool
  | [] => true
  | (_, e) :: rest => e.hasTexts && haveTexts rest

end

theorem hasTexts_of_get? {e c : Entry} {name : String} (h : e.hasTexts = true)
    (hc : e.get? name = some c) : c.hasTexts = true := by
  cases e with
  | file => cases hc
  | folder es =>
    rw [hasTexts] at h
    rw [get?, entries] at hc
    induction es with
    | nil => cases hc
    | cons p es ih =>
      rw [haveTexts, Bool.and_eq_true] at h
      by_cases hp : p.1 = name
      · rw [List.find?_cons_of_pos (by simpa using hp)] at hc
        obtain rfl : p.2 = c := Option.some.inj hc
        exact h.1
      · rw [List.find?_cons_of_neg (by simpa using hp)] at hc
        exact ih h.2 hc

theorem hasTexts_of_walk? {e x : Entry} {names : List String} (h : e.hasTexts = true)
    (hx : e.walk? names = some x) : x.hasTexts = true := by
  induction names generalizing e with
  | nil =>
    obtain rfl := Option.some.inj hx
    exact h
  | cons n names ih =>
    obtain ⟨c, hc, hx⟩ := Option.bind_eq_some_iff.mp hx
    exact ih (hasTexts_of_get? h hc) hx

end Entry

/-! ### Paths of names -/

section

variable {names : List String}

theorem pathComponents_intercalate (h : ∀ n ∈ names, isFileName n = true) (hne : names ≠ []) :
    pathComponents ("/".intercalate names) = names := by
  have hslash : ∀ piece ∈ names.map String.toList, '/' ∉ piece := by
    intro piece hpiece
    obtain ⟨n, hn, rfl⟩ := List.mem_map.mp hpiece
    exact (isFileName_iff.mp (h n hn)).2.1
  rw [pathComponents, String.toList_intercalate]
  show ((['/'].intercalate (names.map String.toList)).splitOn '/').map String.ofList = names
  rw [List.splitOn_intercalate _ hslash (by simpa using hne), List.map_map]
  simp

theorem nul_not_mem_intercalate (h : ∀ n ∈ names, isFileName n = true) :
    '\x00' ∉ ("/".intercalate names).toList := by
  cases names with
  | nil => simp
  | cons n names =>
    intro hmem
    rw [String.toList_intercalate, List.map_cons, Text.intercalate_cons] at hmem
    rcases List.mem_append.mp hmem with hmem | hmem
    · exact (isFileName_iff.mp (h n List.mem_cons_self)).2.2 hmem
    · obtain ⟨piece, hpiece, hmem⟩ := List.mem_flatMap.mp hmem
      obtain ⟨m, hm, rfl⟩ := List.mem_map.mp hpiece
      rcases List.mem_append.mp hmem with hmem | hmem
      · exact absurd hmem (by decide)
      · exact (isFileName_iff.mp (h m (List.mem_cons_of_mem _ hm))).2.2 hmem

end

/-- Names that lead to an entry are taken one by one. -/
theorem Place.foldlM_step {p : Place} {x : Entry} {names : List String}
    (hp : p.here.isProper = true) (hx : p.here.walk? names = some x) :
    ∃ q, names.foldlM Place.step p = .ok q ∧ q.here = x := by
  induction names generalizing p with
  | nil => exact ⟨p, rfl, Option.some.inj hx⟩
  | cons n names ih =>
    obtain ⟨c, hc, hx⟩ := Option.bind_eq_some_iff.mp hx
    obtain ⟨hn, hproper⟩ := Entry.isProper_of_mem hp ((Entry.get?_eq_some_iff hp).mp hc)
    have hstep : p.step n = .ok ⟨c, (n, p.here) :: p.above⟩ := by
      have hn := (isFileName_iff.mp hn).1
      simp only [List.mem_cons, List.not_mem_nil, not_or, or_false] at hn
      rw [Place.step, Entry.isFolder_of_get? hc]
      simp [hn, Place.down?, hc]
    obtain ⟨q, hq, hqx⟩ := ih (p := ⟨c, (n, p.here) :: p.above⟩) hproper hx
    exact ⟨q, by rw [List.foldlM_cons, hstep]; exact hq, hqx⟩

/-- **A file is read by the path that its names make.** -/
theorem FileSystem.readText_of_walk? {fs : FileSystem} {names : List String} {bytes : ByteArray}
    {content : String} (hfs : fs.homePlace.here.isProper = true) (hne : names ≠ [])
    (hwalk : fs.homePlace.here.walk? names = some (.file bytes))
    (hcontent : String.fromUTF8? bytes = some content) :
    fs.readText ("/".intercalate names) = .ok content := by
  obtain ⟨hnames, -⟩ := Entry.isProper_of_walk? hfs hwalk
  obtain ⟨q, hq, hhere⟩ := Place.foldlM_step hfs hwalk
  have hcomponents := pathComponents_intercalate hnames hne
  have hempty : "" ∉ names := fun hmem => absurd (hnames "" hmem) (by decide)
  have hrelative : isAbsolute ("/".intercalate names) = false := by
    refine decide_eq_false fun hhead => hempty ?_
    rw [← hcomponents]
    exact List.mem_map.mpr ⟨[], Pattern.nil_mem_splitOn_of_head? hhead, rfl⟩
  have hnul : ("/".intercalate names).toList.contains '\x00' = false :=
    Bool.eq_false_iff.mpr fun h => nul_not_mem_intercalate hnames (List.contains_iff_mem.mp h)
  have hpath : ("/".intercalate names).isEmpty = false := by
    refine Bool.eq_false_iff.mpr fun h => hempty ?_
    rw [← hcomponents, String.isEmpty_iff.mp h]
    decide
  have hresolve : fs.resolve ("/".intercalate names) = .ok q := by
    rw [resolve, hcomponents, origin, hrelative, hnul, hpath]
    exact hq
  obtain ⟨here, above⟩ := q
  obtain rfl : here = .file bytes := hhere
  rw [readText, hresolve]
  show (String.fromUTF8? bytes).elim (throw FileFault.notText) pure = Except.ok content
  rw [hcontent]
  rfl

namespace Script

variable {fs : FileSystem} {pattern : String} {p : Pattern}

/-- The script in the file that names lead to. -/
structure FoundAt (fs : FileSystem) (names : List String) (s : Script) : Prop where
  name : names.getLast? = some s.name
  path : s.path = "/".intercalate names
  content : ∃ bytes, fs.homePlace.here.walk? names = some (.file bytes) ∧
    String.fromUTF8? bytes = some s.content

/-- The script at the end of a route. -/
def ofRoute (r : List (List String) × ByteArray) : Script :=
  ⟨r.1.flatten.getLast?.getD "", "/".intercalate r.1.flatten, (String.fromUTF8? r.2).getD ""⟩

theorem FoundAt.unique {names : List String} {s s' : Script} (h : FoundAt fs names s)
    (h' : FoundAt fs names s') : s = s' := by
  obtain ⟨hname, hpath, bytes, hwalk, hcontent⟩ := h
  obtain ⟨hname', hpath', bytes', hwalk', hcontent'⟩ := h'
  obtain ⟨name, path, content⟩ := s
  obtain ⟨name', path', content'⟩ := s'
  obtain rfl := Option.some.inj (hname.symm.trans hname')
  obtain rfl : path = path' := hpath.trans hpath'.symm
  obtain rfl := Entry.file.inj (Option.some.inj (hwalk.symm.trans hwalk'))
  obtain rfl := Option.some.inj (hcontent.symm.trans hcontent')
  rfl

theorem FoundAt.ne_nil {names : List String} {s : Script} (h : FoundAt fs names s) : names ≠ [] := by
  rintro rfl
  cases h.name

theorem FoundAt.pathComponents_eq {names : List String} {s : Script}
    (hfs : fs.homePlace.here.isProper = true) (h : FoundAt fs names s) :
    pathComponents s.path = names := by
  obtain ⟨bytes, hwalk, -⟩ := h.content
  rw [h.path, pathComponents_intercalate (Entry.isProper_of_walk? hfs hwalk).1 h.ne_nil]

theorem FoundAt.inFile {names : List String} {s : Script}
    (hfs : fs.homePlace.here.isProper = true) (h : FoundAt fs names s) : InFile fs s.path s where
  name_eq := by rw [pathName, h.pathComponents_eq hfs, h.name, Option.getD_some]
  path_eq := rfl
  read := by
    obtain ⟨bytes, hwalk, hcontent⟩ := h.content
    rw [h.path, FileSystem.readText_of_walk? hfs h.ne_nil hwalk hcontent]

theorem foundAt_ofRoute {cs : List Pattern.Component} {r : List (List String) × ByteArray}
    (hfs : fs.homePlace.here.isProper = true) (htexts : fs.homePlace.here.hasTexts = true)
    (hcs : cs ≠ []) (hr : r ∈ Pattern.routes cs fs.homePlace.here) :
    FoundAt fs r.1.flatten (ofRoute r) := by
  obtain ⟨hroute, hwalk⟩ := (Pattern.mem_routes hfs).mp hr
  obtain ⟨content, hcontent⟩ := Option.isSome_iff_exists.mp (Entry.hasTexts_of_walk? htexts hwalk)
  refine ⟨?_, rfl, r.2, hwalk, by rw [ofRoute, hcontent, Option.getD_some]⟩
  rw [ofRoute, List.getLast?_eq_some_getLast (hroute.flatten_ne_nil hcs), Option.getD_some]

/-- **The scripts that a plain pattern finds are those at the ends of its routes.** -/
theorem discover_eq (hfs : fs.homePlace.here.isProper = true)
    (htexts : fs.homePlace.here.hasTexts = true) (hlists : fs.listsHome = true)
    (hp : Pattern.parse pattern = .ok p) (hplain : Pattern.IsPlain pattern) : (discover fs pattern).toExcept =
      if Pattern.routes p.components fs.homePlace.here = [] then .error (.noMatch pattern)
      else .ok ((Pattern.routes p.components fs.homePlace.here).map ofRoute) := by
  have hcs := Pattern.components_ne_nil hp hplain
  have hfind := Pattern.find_plain hfs hlists hp hplain
  have hfound : List.Forall₂ (Found fs) (fs.find p)
      ((Pattern.routes p.components fs.homePlace.here).map ofRoute) := by
    rw [hfind, List.forall₂_map_left_iff, List.forall₂_map_right_iff, List.forall₂_same]
    intro r hr
    exact ⟨_, rfl, (foundAt_ofRoute hfs htexts hcs hr).inFile hfs⟩
  by_cases hroutes : Pattern.routes p.components fs.homePlace.here = []
  · have hnone : fs.find p = [] := by rw [hfind, hroutes, List.map_nil]
    rw [if_pos hroutes, discover, hp]
    simp only [hnone]
    rfl
  · rw [if_neg hroutes, discover_of_find hp (by simpa [hfind] using hroutes), loadAll_of_found hfound]
    rfl

/-- The script is in a file whose path matches a pattern that does not end in `**`. -/
def Matched (fs : FileSystem) (pattern : String) (s : Script) : Prop :=
  ∃ names, FoundAt fs names s ∧ Pattern.MatchesPath (pathComponents pattern) names ∧
    (pathComponents pattern).getLast? ≠ some "**"

theorem mem_routes_iff_matched {s : Script} (hfs : fs.homePlace.here.isProper = true)
    (htexts : fs.homePlace.here.hasTexts = true) (hp : Pattern.parse pattern = .ok p)
    (hplain : Pattern.IsPlain pattern) :
    s ∈ (Pattern.routes p.components fs.homePlace.here).map ofRoute ↔ Matched fs pattern s := by
  have hcs := Pattern.components_ne_nil hp hplain
  rw [List.mem_map]
  constructor
  · rintro ⟨r, hr, rfl⟩
    obtain ⟨hroute, -⟩ := (Pattern.mem_routes hfs).mp hr
    exact ⟨_, foundAt_ofRoute hfs htexts hcs hr,
      (Pattern.matchesPath_iff_route hp hplain).mpr ⟨r.1, hroute, rfl⟩⟩
  · rintro ⟨names, hfound, hmatch⟩
    obtain ⟨w, hroute, rfl⟩ := (Pattern.matchesPath_iff_route hp hplain).mp hmatch
    obtain ⟨bytes, hwalk, -⟩ := hfound.content
    have hr : (w, bytes) ∈ Pattern.routes p.components fs.homePlace.here :=
      (Pattern.mem_routes hfs).mpr ⟨hroute, hwalk⟩
    exact ⟨_, hr, (foundAt_ofRoute hfs htexts hcs hr).unique hfound⟩

/-- **A plain pattern finds the scripts in the files whose paths it matches**, and it fails if there are
none.  No file matches a pattern that ends in `**`, which leads to folders. -/
theorem discover_finds (fs : FileSystem) (pattern : String) (p : Pattern)
    (hfs : fs.homePlace.here.isProper = true) (htexts : fs.homePlace.here.hasTexts = true)
    (hlists : fs.listsHome = true) (hp : Pattern.parse pattern = .ok p)
    (hplain : Pattern.IsPlain pattern) :
    ((∃ s, Matched fs pattern s) → ∃ scripts, (discover fs pattern).toExcept = .ok scripts ∧
      ∀ s, s ∈ scripts ↔ Matched fs pattern s) ∧
    ((¬ ∃ s, Matched fs pattern s) ↔ (discover fs pattern).toExcept = .error (.noMatch pattern)) ∧
    (LoadFault.noMatch pattern).message = "No script matches " ++ Text.quoted pattern := by
  have hmem : ∀ s, _ ↔ Matched fs pattern s :=
    fun s => mem_routes_iff_matched (s := s) hfs htexts hp hplain
  rw [discover_eq hfs htexts hlists hp hplain]
  by_cases hroutes : Pattern.routes p.components fs.homePlace.here = []
  · have hnone : ¬ ∃ s, Matched fs pattern s := by
      rintro ⟨s, hs⟩
      simpa [hroutes] using (hmem s).mpr hs
    rw [if_pos hroutes]
    exact ⟨fun h => absurd h hnone, iff_of_true hnone rfl, rfl⟩
  · obtain ⟨r, rs, hr⟩ := List.exists_cons_of_ne_nil hroutes
    have hsome : ∃ s, Matched fs pattern s := ⟨ofRoute r, (hmem _).mp (by simp [hr])⟩
    rw [if_neg hroutes]
    exact ⟨fun _ => ⟨_, rfl, hmem⟩, iff_of_false (not_not.mpr hsome) (by simp), rfl⟩

/-- Two files of one name, one of them in a folder of the same name as the folder around it. -/
def twoDepths : FileSystem :=
  ⟨.folder [("home", .folder [("a", .folder [("a", .folder [("b", .file "y: integer;".toUTF8)]),
    ("b", .file "x: integer;".toUTF8)])])], ["home"], []⟩

/-- `**` stands for one folder; and nothing but a folder matches the second pattern. -/
theorem discover_finds_two_depths :
    Matched twoDepths "**/a/[!c]" ⟨"b", "a/a/b", "y: integer;"⟩ ∧
    (∃ scripts, (discover twoDepths "**/a/[!c]").toExcept = .ok scripts ∧
      ∀ s, s ∈ scripts ↔ Matched twoDepths "**/a/[!c]" s) ∧
    ¬ ∃ s, Matched twoDepths "**/a/[!b]" s := by
  have hfs : twoDepths.homePlace.here.isProper = true := by decide +kernel
  have htexts : twoDepths.homePlace.here.hasTexts = true := by decide +kernel
  have hfound : FoundAt twoDepths ["a", "a", "b"] ⟨"b", "a/a/b", "y: integer;"⟩ :=
    ⟨rfl, by decide +kernel, _, rfl, by decide +kernel⟩
  have hb : Pattern.MatchesName ('[' :: '!' :: 'c' :: ([] ++ ']' :: [])) ['b'] :=
    .outside (by simp) (fun h => absurd ((Pattern.any_ranges_iff _ _).mpr h) (by decide)) .nil
  have hmatch : Pattern.MatchesPath (pathComponents "**/a/[!c]") ["a", "a", "b"] :=
    .folder (by simp) (.noFolder (.name (by decide) (.char (by decide) .nil)
      (.name (by decide) hb .nil)))
  have hmatched : Matched twoDepths "**/a/[!c]" ⟨"b", "a/a/b", "y: integer;"⟩ :=
    ⟨_, hfound, hmatch, by decide⟩
  refine ⟨hmatched, ?_, ?_⟩
  · exact (discover_finds twoDepths "**/a/[!c]"
      ⟨false, [.folders, .name "a", .wild [.set true [('c', 'c')]]], false⟩ hfs htexts
      (by decide +kernel) (by decide +kernel) (by decide +kernel)).1 ⟨_, hmatched⟩
  · exact (discover_finds twoDepths "**/a/[!b]"
      ⟨false, [.folders, .name "a", .wild [.set true [('b', 'b')]]], false⟩ hfs htexts
      (by decide +kernel) (by decide +kernel) (by decide +kernel)).2.1.mpr (by decide +kernel)

/-- A last `**` does not stand for no folder: the path `a` matches component by component, but is not
found. -/
theorem discover_misses_file :
    let fs : FileSystem :=
      ⟨.folder [("home", .folder [("a", .file "x: integer;".toUTF8)])], ["home"], []⟩
    fs.homePlace.here.isProper = true ∧ fs.homePlace.here.hasTexts = true ∧ fs.listsHome = true ∧
    Pattern.parse "a/**" = .ok ⟨false, [.name "a", .folders], false⟩ ∧ Pattern.IsPlain "a/**" ∧
    FoundAt fs ["a"] ⟨"a", "a", "x: integer;"⟩ ∧
    Pattern.MatchesPath (pathComponents "a/**") ["a"] ∧
    (discover fs "a/**").toExcept = .error (.noMatch "a/**") := by
  refine ⟨by decide +kernel, by decide +kernel, by decide +kernel, by decide +kernel,
    by decide +kernel, ?_, ?_, by decide +kernel⟩
  · exact ⟨rfl, by decide +kernel, _, rfl, by decide +kernel⟩
  · exact .name (by decide) (.char (by decide) .nil) (.noFolder .nil)

/-- **Scripts are found in the order of their routes**, that is in the lexicographic order of the parts
that the components of the pattern lead along; a file that has several routes is found once for each of
them.  With at most one component after the first `**` this is the order of the paths, in which no file
comes twice. -/
theorem discover_in_route_order (fs : FileSystem) (pattern : String) (p : Pattern)
    (hfs : fs.homePlace.here.isProper = true) (htexts : fs.homePlace.here.hasTexts = true)
    (hlists : fs.listsHome = true) (hp : Pattern.parse pattern = .ok p)
    (hplain : Pattern.IsPlain pattern) :
    ∃ ws : List (List (List String)), ws.Pairwise (· < ·) ∧
      (∀ w, w ∈ ws ↔ Pattern.Route p.components w ∧
        ∃ bytes, fs.homePlace.here.walk? w.flatten = some (.file bytes)) ∧
      (ws = [] → (discover fs pattern).toExcept = .error (.noMatch pattern)) ∧
      (ws ≠ [] → ∃ scripts, (discover fs pattern).toExcept = .ok scripts ∧
        scripts.map (fun s => pathComponents s.path) = ws.map List.flatten ∧
        ((p.components.dropWhile (· ≠ .folders)).length ≤ 2 →
          (scripts.map fun s => pathComponents s.path).Pairwise (· < ·))) := by
  have hcs := Pattern.components_ne_nil hp hplain
  have hmem : ∀ w, w ∈ (Pattern.routes p.components fs.homePlace.here).map (·.1) ↔
      Pattern.Route p.components w ∧
        ∃ bytes, fs.homePlace.here.walk? w.flatten = some (.file bytes) := by
    intro w
    simp [Pattern.mem_routes hfs]
  have horder : ((Pattern.routes p.components fs.homePlace.here).map (·.1)).Pairwise (· < ·) :=
    List.pairwise_map.mpr (Pattern.pairwise_routes hfs)
  have hpaths : ((Pattern.routes p.components fs.homePlace.here).map ofRoute).map
      (fun s => pathComponents s.path) =
        ((Pattern.routes p.components fs.homePlace.here).map (·.1)).map List.flatten := by
    rw [List.map_map, List.map_map]
    refine List.map_congr_left fun r hr => ?_
    exact (foundAt_ofRoute hfs htexts hcs hr).pathComponents_eq hfs
  refine ⟨_, horder, hmem, ?_, ?_⟩
  · intro hnil
    rw [discover_eq hfs htexts hlists hp hplain, if_pos (List.map_eq_nil_iff.mp hnil)]
  · intro hne
    rw [discover_eq hfs htexts hlists hp hplain, if_neg fun hnil => hne (List.map_eq_nil_iff.mpr hnil)]
    refine ⟨_, rfl, hpaths, fun hleap => ?_⟩
    rw [hpaths, List.pairwise_map]
    refine horder.imp_of_mem fun {w w'} hw hw' hlt => ?_
    exact ((hmem w).mp hw).1.flatten_lt ((hmem w').mp hw').1 hleap hlt

/-- One component after `**`: the order of the paths. -/
theorem discover_in_route_order_two_depths :
    (Pattern.parse "a/**/?" = .ok ⟨false, [.name "a", .folders, .wild [.any]], false⟩ ∧
      twoDepths.homePlace.here.isProper = true ∧ twoDepths.homePlace.here.hasTexts = true ∧
      twoDepths.listsHome = true ∧ Pattern.IsPlain "a/**/?") ∧
    ∃ (ws : List (List (List String))) (scripts : List Script), ws.Pairwise (· < ·) ∧
      [["a"], ["b"]] ∈ ws ∧ [["a"], ["a", "b"]] ∈ ws ∧
      (discover twoDepths "a/**/?").toExcept = .ok scripts ∧
      scripts.map (fun s => pathComponents s.path) = ws.map List.flatten ∧
      (scripts.map fun s => pathComponents s.path).Pairwise (· < ·) := by
  have hp : Pattern.parse "a/**/?" = .ok ⟨false, [.name "a", .folders, .wild [.any]], false⟩ := by
    decide +kernel
  have hfs : twoDepths.homePlace.here.isProper = true := by decide +kernel
  have htexts : twoDepths.homePlace.here.hasTexts = true := by decide +kernel
  have hlists : twoDepths.listsHome = true := by decide +kernel
  have hplain : Pattern.IsPlain "a/**/?" := by decide +kernel
  obtain ⟨ws, horder, hmem, -, hne⟩ :=
    discover_in_route_order twoDepths "a/**/?" _ hfs htexts hlists hp hplain
  have hshort : [["a"], ["b"]] ∈ ws :=
    (hmem _).mpr ⟨.step rfl (show Pattern.Route _ [[] ++ ["b"]] from .leap rfl .nil), _, rfl⟩
  have hlong : [["a"], ["a", "b"]] ∈ ws :=
    (hmem _).mpr ⟨.step rfl (show Pattern.Route _ [["a"] ++ ["b"]] from .leap rfl .nil), _, rfl⟩
  obtain ⟨scripts, hscripts, hpaths, hsorted⟩ := hne (List.ne_nil_of_mem hshort)
  exact ⟨⟨hp, hfs, htexts, hlists, hplain⟩, ws, scripts, horder, hshort, hlong, hscripts, hpaths,
    hsorted (by decide)⟩

/-- With two components after `**`, a file that is less deep comes first wherever its path belongs, and
with two `**` a file comes twice. -/
theorem discover_out_of_path_order :
    (twoDepths.homePlace.here.isProper = true ∧ twoDepths.homePlace.here.hasTexts = true ∧
      twoDepths.listsHome = true ∧ Pattern.IsPlain "**/a/b" ∧ Pattern.IsPlain "**/a/**/b") ∧
    (discover twoDepths "**/a/b").toExcept =
      .ok [⟨"b", "a/b", "x: integer;"⟩, ⟨"b", "a/a/b", "y: integer;"⟩] ∧
    ¬ pathComponents "a/b" < pathComponents "a/a/b" ∧
    (discover twoDepths "**/a/**/b").toExcept =
      .ok [⟨"b", "a/a/b", "y: integer;"⟩, ⟨"b", "a/b", "x: integer;"⟩,
        ⟨"b", "a/a/b", "y: integer;"⟩] := by
  refine ⟨⟨?_, ?_, ?_, ?_, ?_⟩, ?_, ?_, ?_⟩
  all_goals decide +kernel

end Script

end Mt22
