import Mt22.Proofs.Command.Loading

/-!
# What `build` and `check` agree on

`build` goes over the scripts with a flag that is set at the first failure, and takes its code from the
flag; `check` makes a row for each script, and takes its code from the rows.  Both print the diagnostic
of a failure when they come to it.  So at each script they have printed the same lines, and the flag is
set exactly if there is a row that failed (`Building.printed_foldl`, `Building.failed_foldl`).

Without a log nothing else is printed for arguments that load (`Command.shown_notices`), and the rows
are those of the scripts, with their counts or with the line that was printed
(`Command.build_check_agree`).
-/

namespace Mt22

/-- The row tells what is made of the script. -/
def FileReport.Describes (row : FileReport) (s : Script) : Prop :=
  row.file = s.name ∧
    match s.program with
    | .ok p => row.status = .ok ∧ row.stats = some p.stats ∧ row.error = none
    | .error e =>
      row.status = .failed ∧ row.stats = none ∧ row.error = some (s.diagnose e).report

theorem FileReport.Describes.status_eq_failed_iff {row : FileReport} {s : Script}
    (h : row.Describes s) : row.status = .failed ↔ ¬ ∃ p, s.program = .ok p := by
  obtain ⟨-, h⟩ := h
  cases hs : s.program with
  | ok p =>
    rw [hs] at h
    simp [h.1]
  | error e =>
    rw [hs] at h
    simp [h.1]

namespace Command

open Mt22.Script

variable {scripts : List Script}

/-! ### One script after the other -/

/-- `build` adds the lines that `check` prints to those it has printed. -/
theorem Building.printed_foldl (ps : List (Script × Except Diagnostic Program)) (b : Building) :
    (ps.foldl step b).printed = b.printed ++ (ps.map checkScript).flatMap (·.2) := by
  induction ps generalizing b with
  | nil => exact (List.append_nil _).symm
  | cons p ps ih =>
    rw [List.foldl_cons, ih, List.map_cons, List.flatMap_cons]
    match p with
    | (s, .ok program) => rfl
    | (s, .error d) => exact List.append_assoc _ _ _

/-- The flag of `build` is set exactly if it was, or a row of `check` has failed. -/
theorem Building.failed_foldl (ps : List (Script × Except Diagnostic Program)) (b : Building) :
    (ps.foldl step b).failed =
      (b.failed || ((ps.map checkScript).map (·.1)).any (·.status = .failed)) := by
  induction ps generalizing b with
  | nil => exact (Bool.or_false _).symm
  | cons p ps ih =>
    rw [List.foldl_cons, ih, List.map_cons, List.map_cons, List.any_cons]
    match p with
    | (s, .ok program) => rfl
    | (s, .error d) => exact (Bool.or_true _).symm

theorem printed_ofScripts (scripts : List Script) :
    (Building.ofScripts scripts).printed = checkNotices scripts :=
  Building.printed_foldl _ _

theorem code_ofScripts (scripts : List Script) :
    (Building.ofScripts scripts).code = checkCode (checkRows scripts) := by
  have hfailed : (Building.ofScripts scripts).failed =
      (checkRows scripts).any (·.status = .failed) := Building.failed_foldl _ _
  rw [Building.code, checkCode, hfailed]

/-! ### The rows of a summary -/

theorem describes_checkRows (scripts : List Script) :
    List.Forall₂ FileReport.Describes (checkRows scripts) scripts := by
  rw [checkRows, checkAll, zip_lowerAll, List.map_map, List.map_map, List.forall₂_map_left_iff,
    List.forall₂_same]
  intro s _
  unfold FileReport.Describes
  dsimp only [Function.comp]
  cases s.program with
  | ok p => exact ⟨rfl, rfl, rfl, rfl⟩
  | error e => exact ⟨rfl, rfl, rfl, rfl⟩

theorem any_failed_iff {rows : List FileReport} (h : List.Forall₂ FileReport.Describes rows scripts) :
    rows.any (·.status = .failed) = true ↔ ∃ s ∈ scripts, ¬ ∃ p, s.program = .ok p := by
  induction h with
  | nil => simp
  | @cons row s rows scripts hrow _ ih =>
    simp only [List.any_cons, Bool.or_eq_true, decide_eq_true_iff, hrow.status_eq_failed_iff, ih,
      List.exists_mem_cons_iff]

theorem checkCode_eq_zero_iff :
    checkCode (checkRows scripts) = 0 ↔ ∀ s ∈ scripts, ∃ p, s.program = .ok p := by
  have hany := any_failed_iff (describes_checkRows scripts)
  rw [checkCode]
  split
  · next h => exact iff_of_false (by decide) (by simpa using hany.mp h)
  · next h => exact iff_of_true rfl (by simpa using mt hany.mpr h)

/-- The lines that `check` prints are the errors in its rows. -/
theorem filterMap_shown_checkNotices (scripts : List Script) :
    (checkNotices scripts).filterMap (Notice.shown? 0) =
      (checkRows scripts).filterMap FileReport.error := by
  rw [checkNotices, checkRows, List.filterMap_flatMap, List.filterMap_map]
  unfold checkAll
  induction scripts.zip (lowerAll scripts) with
  | nil => rfl
  | cons p ps ih =>
    rw [List.map_cons, List.flatMap_cons, List.filterMap_cons, ih]
    match p with
    | (s, .ok program) => rfl
    | (s, .error d) => rfl

/-! ### Lines that are always shown -/

/-- A line of the log is not shown without being asked for. -/
theorem shown?_log (level : LogLevel) (line : String) :
    (Notice.log level line).shown? 0 = none := by
  cases level <;> rfl

theorem filterMap_shown_loaded (scripts : List Script) :
    (scripts.map loadedNotice).filterMap (Notice.shown? 0) = [] := by
  simp [loadedNotice, shown?_log, List.filterMap_map]

theorem filterMap_shown_loadNotices (scripts : List Script) :
    (loadNotices ⟨scripts, none⟩).filterMap (Notice.shown? 0) = [] := by
  rw [loadNotices, List.filterMap_append, filterMap_shown_loaded]
  rfl

theorem filterMap_shown_readNotices (s : Script) :
    (readNotices s).filterMap (Notice.shown? 0) = [] := by
  unfold readNotices
  cases s.parse with
  | error e => rfl
  | ok t =>
    dsimp only
    rw [List.filterMap_append]
    cases Program.ofTree t <;> simp [functionNotice, shown?_log]

/-- Without a log, one line is shown for each script of which no program is made. -/
theorem shown_notices (scripts : List Script) :
    showNotices 0 (loadNotices ⟨scripts, none⟩ ++ scripts.flatMap readNotices ++
      checkNotices scripts) = unlines ((checkRows scripts).filterMap FileReport.error) := by
  have hread : (scripts.flatMap readNotices).filterMap (Notice.shown? 0) = [] := by
    rw [List.filterMap_flatMap, List.flatMap_eq_nil_iff]
    exact fun s _ => filterMap_shown_readNotices s
  rw [showNotices, List.filterMap_append, List.filterMap_append, filterMap_shown_loadNotices, hread,
    filterMap_shown_checkNotices]
  rfl

/-- **`build` and `check` agree.**  Given the same arguments, and without a log, they show the same lines
and end with the same code, which is 0 if and only if all arguments load and a program is made of every
script.  If all load, the rows of `check` tell of the scripts one by one in the order of loading, its
summary is made of these rows, and the lines that are shown are the errors in the rows. -/
theorem build_check_agree (fs : FileSystem) (files args args' : List String)
    (buildFormat : BuildFormat) (checkFormat : CheckFormat)
    (hbuild : Invocation.parse args = .run 0 (.build buildFormat none) files)
    (hcheck : Invocation.parse args' = .run 0 (.check checkFormat) files) :
    (run args fs).stderr = (run args' fs).stderr ∧ (run args fs).code = (run args' fs).code ∧
      ((run args fs).code = 0 ↔ ∃ sss, List.Forall₂ (Loads fs) files sss ∧
        ∀ s ∈ sss.flatten, ∃ p, s.program = .ok p) ∧
      ∀ sss, List.Forall₂ (Loads fs) files sss →
        List.Forall₂ FileReport.Describes (checkRows sss.flatten) sss.flatten ∧
          (run args' fs).stdout = unlines [summary (checkRows sss.flatten) checkFormat] ∧
          (run args' fs).stderr =
            unlines ((checkRows sss.flatten).filterMap FileReport.error) := by
  rcases loads_or_first_fails fs files with ⟨sss, hall⟩ | ⟨pre, a, post, sss, rfl, hpre, f, ha⟩
  · have hcode : (run args fs).code = (run args' fs).code := by
      rw [run_build_of_loads hbuild hall, run_check_of_loads hcheck hall]
      exact code_ofScripts sss.flatten
    have hstderr : (run args fs).stderr = (run args' fs).stderr := by
      rw [run_build_of_loads hbuild hall, run_check_of_loads hcheck hall, buildScripts,
        printed_ofScripts]
      rfl
    refine ⟨hstderr, hcode, ?_, fun sss' hall' => ?_⟩
    · rw [hcode, run_check_of_loads hcheck hall]
      refine checkCode_eq_zero_iff.trans ⟨fun h => ⟨sss, hall, h⟩, ?_⟩
      rintro ⟨sss', hall', h⟩
      rwa [loads_unique hall hall']
    · rw [← loads_unique hall hall', run_check_of_loads hcheck hall]
      exact ⟨describes_checkRows _, rfl, shown_notices _⟩
  · have hnone : ∀ sss, ¬ List.Forall₂ (Loads fs) (pre ++ a :: post) sss := by
      intro sss' hall
      obtain ⟨ss, hss⟩ := exists_loads_of_mem hall (a := a) (by simp)
      exact hss.not_fails ha
    obtain ⟨loaded, -, hrun⟩ := run_of_fails hbuild hpre ha
    obtain ⟨loaded', -, hrun'⟩ := run_of_fails hcheck hpre ha
    rw [hrun, hrun', filterMap_shown_loaded, filterMap_shown_loaded]
    refine ⟨rfl, rfl, iff_of_false Nat.one_ne_zero ?_, fun sss hall => absurd hall (hnone sss)⟩
    rintro ⟨sss, hall, -⟩
    exact hnone sss hall

/-- A script of which a program is made, and one of which none is. -/
def twoScripts : FileSystem :=
  ⟨.folder [("a", .file "x: integer;".toUTF8), ("b", .file "x, y: integer = 1;".toUTF8)], [], []⟩

theorem build_check_agree_two :
    let scripts : List Script := [⟨"a", "a", "x: integer;"⟩, ⟨"b", "b", "x, y: integer = 1;"⟩]
    let line := "MT22 | ERROR | b:1:1 | Declaration of 2 variable(s) has 1 initializer(s)."
    let built := run ["build", "a", "b"] twoScripts
    let checked := run ["check", "-f", "json", "--", "a", "b"] twoScripts
    checkRows scripts = [⟨"a", .ok, some ⟨0, 1, 0, 0, 0⟩, none⟩, ⟨"b", .failed, none, some line⟩] ∧
      List.Forall₂ FileReport.Describes (checkRows scripts) scripts ∧
      checked.stdout = unlines [summary (checkRows scripts) .json] ∧
      built.stderr = line ++ "\n" ∧ checked.stderr = line ++ "\n" ∧
      built.code = 1 ∧ checked.code = 1 := by
  intro scripts line built checked
  have hrows : checkRows scripts =
      [⟨"a", .ok, some ⟨0, 1, 0, 0, 0⟩, none⟩, ⟨"b", .failed, none, some line⟩] := by
    decide +kernel
  have ha : Loads twoScripts "a" [⟨"a", "a", "x: integer;"⟩] :=
    .file (by decide) ⟨by decide +kernel, rfl, by decide +kernel⟩
  have hb : Loads twoScripts "b" [⟨"b", "b", "x, y: integer = 1;"⟩] :=
    .file (by decide) ⟨by decide +kernel, rfl, by decide +kernel⟩
  obtain ⟨hstderr, hcode, -, hloaded⟩ := build_check_agree twoScripts ["a", "b"] ["build", "a", "b"]
    ["check", "-f", "json", "--", "a", "b"] .text .json (by decide +kernel) (by decide +kernel)
  obtain ⟨hdescribes, hstdout, hlines⟩ := hloaded _ (.cons ha (.cons hb .nil))
  have hline : checked.stderr = line ++ "\n" := by
    refine hlines.trans ?_
    show unlines ((checkRows scripts).filterMap FileReport.error) = _
    rw [hrows]
    decide +kernel
  have hone : checked.code = 1 := by decide +kernel
  exact ⟨hrows, hdescribes, hstdout, hstderr.trans hline, hline, hcode.trans hone, hone⟩

end Command

end Mt22
