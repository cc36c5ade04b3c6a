import Mt22.Command.Run
import Mt22.Proofs.Files.Write
import Mt22.Proofs.Script.Loading

/-!
# Commands and the files they name

A command first loads all scripts that its arguments name.  If one of them fails to load, nothing is
done but to report the first failure; otherwise the task is run on all scripts
(`Command.run_of_fails`, `Command.run_of_loads`).  Files are changed by a task only, and it changes
none but the one that its output is written to (`Command.run_all_or_nothing`).
-/

namespace Mt22.Command

open Mt22.Script

variable {fs : FileSystem} {args files : List String} {v : Nat} {task : Task}
  {sss : List (List Script)}

/-- Scripts with what is made of each. -/
theorem zip_lowerAll (scripts : List Script) :
    scripts.zip (lowerAll scripts) = scripts.map fun s => (s, s.program.mapError s.diagnose) :=
  List.map_prod_left_eq_zip.symm

theorem run_build_of_loads {format : BuildFormat} {output : Option String}
    (hparse : Invocation.parse args = .run v (.build format output) files)
    (h : List.Forall₂ (Loads fs) files sss) :
    run args fs =
      buildScripts fs v (loadNotices ⟨sss.flatten, none⟩) format output sss.flatten := by
  rw [run, hparse]
  simp only [runBuild, loadArguments_of_loads h, Loading.toExcept]

theorem run_check_of_loads {format : CheckFormat}
    (hparse : Invocation.parse args = .run v (.check format) files)
    (h : List.Forall₂ (Loads fs) files sss) :
    run args fs = checkScripts fs v (loadNotices ⟨sss.flatten, none⟩) format sss.flatten := by
  rw [run, hparse]
  simp only [runCheck, loadArguments_of_loads h, Loading.toExcept]

/-- The lines that are shown before the report are those of scripts that were loaded, if the user
asked for them. -/
theorem run_of_fails {pre post : List String} {a : String} {f : LoadFault}
    (hparse : Invocation.parse args = .run v task (pre ++ a :: post))
    (hpre : List.Forall₂ (Loads fs) pre sss) (ha : Fails fs a f) :
    ∃ loaded : List Script, (∀ s ∈ loaded, InFile fs s.path s) ∧
      run args fs = ⟨1, "", unlines ((loaded.map loadedNotice).filterMap (Notice.shown? v) ++
        [f.diagnostic.report]), none, fs⟩ := by
  obtain ⟨ss, hss, hload⟩ := loadArguments_of_fails hpre ha post
  refine ⟨sss.flatten ++ ss, ?_, ?_⟩
  · intro s hs
    rcases List.mem_append.mp hs with hs | hs
    · exact forall_inFile_flatten hpre s hs
    · exact hss s hs
  · have hending : run args fs =
        .ofLoadFault v ⟨sss.flatten ++ ss, some f⟩ f fs := by
      rw [run, hparse]
      cases task <;> simp only [runBuild, runCheck, hload, Loading.toExcept]
    rw [hending, Ending.ofLoadFault, loadNotices, showNotices, List.append_nil,
      List.filterMap_append]
    rfl

/-- The lines of loaded scripts as they are shown. -/
theorem shown_of_loaded {loaded : List Script} {line : String}
    (h : line ∈ (loaded.map loadedNotice).filterMap (Notice.shown? v)) :
    2 ≤ v ∧ ∃ s ∈ loaded, line = "[DEBUG] loaded script " ++ s.path ++ " (" ++
      toString s.content.utf8ByteSize ++ " bytes)" := by
  obtain ⟨n, hn, hshown⟩ := List.mem_filterMap.mp h
  obtain ⟨s, hs, rfl⟩ := List.mem_map.mp hn
  rw [loadedNotice, Notice.shown?] at hshown
  split at hshown
  · next hv =>
    refine ⟨hv, s, hs, ?_⟩
    rw [← Option.some.inj hshown]
    simp only [LogLevel.tag, String.append_assoc]
    rfl
  · cases hshown

/-- **Where the output of `build` goes**: to the standard output, or into the file that is named for
it, unless nothing can be written there. -/
theorem run_build {format : BuildFormat} {output : Option String}
    (hparse : Invocation.parse args = .run v (.build format output) files)
    (hload : List.Forall₂ (Loads fs) files sss) :
    (output = none →
      (run args fs).stdout = unlines [(Building.ofScripts sss.flatten).output format]) ∧
    ∀ path, output = some path →
      (∃ names, (run args fs).written =
          some (path, (Building.ofScripts sss.flatten).output format) ∧
        fs.Leads path names ∧ (run args fs).files.look names =
          some (some ((Building.ofScripts sss.flatten).output format).toUTF8)) ∨
      ∀ bytes, ∃ cause, fs.write path bytes = .error cause := by
  rw [run_build_of_loads hparse hload]
  refine ⟨?_, ?_⟩
  · rintro rfl
    rfl
  · rintro path rfl
    rw [buildScripts]
    dsimp only
    generalize (Building.ofScripts sss.flatten).output format = text
    cases hw : fs.write path text.toUTF8 with
    | ok fs' =>
      obtain ⟨names, hleads, hlook⟩ := FileSystem.look_write hw
      exact .inl ⟨names, rfl, hleads, (hlook names).trans (if_pos rfl)⟩
    | error cause =>
      refine .inr fun bytes => ?_
      have hok := fs.write_isOk path bytes text.toUTF8
      rw [hw] at hok
      cases hbytes : fs.write path bytes with
      | ok fs' => rw [hbytes] at hok; cases hok
      | error cause' => exact ⟨cause', rfl⟩

/-- A file that is changed by `build` is the one that the output was written to. -/
theorem look_buildScripts {before : List Notice} {format : BuildFormat} {output : Option String}
    {scripts : List Script} {ns : List String}
    (h : (buildScripts fs v before format output scripts).files.look ns ≠ fs.look ns) :
    ∃ path text, output = some path ∧ fs.Leads path ns ∧
      (buildScripts fs v before format output scripts).written = some (path, text) ∧
      (buildScripts fs v before format output scripts).files.look ns = some (some text.toUTF8) := by
  cases output with
  | none => exact absurd rfl h
  | some path =>
    rw [buildScripts] at h ⊢
    dsimp only at h ⊢
    cases hw : fs.write path ((Building.ofScripts scripts).output format).toUTF8 with
    | error cause =>
      rw [hw] at h
      exact absurd rfl h
    | ok written =>
      rw [hw] at h
      obtain ⟨names, hleads, hlook⟩ := FileSystem.look_write hw
      have hns : ns = names := by
        by_contra hne
        exact h ((hlook ns).trans (if_neg hne))
      subst hns
      exact ⟨path, _, rfl, hleads, rfl, (hlook ns).trans (if_pos rfl)⟩

/-- **Loading is all or nothing.**  If an argument fails to load, the command prints nothing but the
diagnostic of the first that fails, after lines of the log at most, ends with code 1 and leaves all
files as they are.  In every run the only file that changes is the one that the output is written
to. -/
theorem run_all_or_nothing (args : List String) (fs : FileSystem) :
    (∀ v task files, Invocation.parse args = .run v task files →
      (∃ a ∈ files, ∃ f, Fails fs a f) →
      ∃ pre a post f logs, files = pre ++ a :: post ∧ (∀ b ∈ pre, ∃ ss, Loads fs b ss) ∧
        Fails fs a f ∧ run args fs = ⟨1, "", unlines (logs ++ [f.diagnostic.report]), none, fs⟩ ∧
        ∀ line ∈ logs, 2 ≤ v ∧ ∃ s, InFile fs s.path s ∧ line = "[DEBUG] loaded script " ++ s.path ++
          " (" ++ toString s.content.utf8ByteSize ++ " bytes)") ∧
    ∀ ns, (run args fs).files.look ns ≠ fs.look ns →
      ∃ v format path files text, Invocation.parse args = .run v (.build format (some path)) files ∧
        fs.Leads path ns ∧ (run args fs).written = some (path, text) ∧
        (run args fs).files.look ns = some (some text.toUTF8) := by
  refine ⟨fun v task files hparse hfail => ?_, fun ns hns => ?_⟩
  · obtain ⟨b, hb, g, hg⟩ := hfail
    rcases loads_or_first_fails fs files with ⟨sss, hall⟩ | ⟨pre, a, post, sss, rfl, hpre, f, ha⟩
    · obtain ⟨ss, hss⟩ := exists_loads_of_mem hall hb
      exact absurd hg hss.not_fails
    · obtain ⟨loaded, hloaded, hrun⟩ := run_of_fails hparse hpre ha
      refine ⟨pre, a, post, f, _, rfl, fun b hb => exists_loads_of_mem hpre hb, ha, hrun, ?_⟩
      intro line hline
      obtain ⟨hv, s, hs, hline⟩ := shown_of_loaded hline
      exact ⟨hv, s, hloaded s hs, hline⟩
  · cases hparse : Invocation.parse args with
    | version | help | misuse | nothing =>
      rw [run, hparse] at hns
      exact absurd rfl hns
    | run v task files =>
      rcases loads_or_first_fails fs files with ⟨sss, hall⟩ | ⟨pre, a, post, sss, rfl, hpre, f, ha⟩
      · cases task with
        | check format =>
          rw [run_check_of_loads hparse hall] at hns
          exact absurd rfl hns
        | build format output =>
          rw [run_build_of_loads hparse hall] at hns ⊢
          obtain ⟨path, text, rfl, hleads, hwritten, hlook⟩ := look_buildScripts hns
          exact ⟨v, format, path, files, text, rfl, hleads, hwritten, hlook⟩
      · obtain ⟨loaded, -, hrun⟩ := run_of_fails hparse hpre ha
        rw [hrun] at hns
        exact absurd rfl hns

/-- One script in the folder that is home. -/
def oneScript : FileSystem :=
  ⟨.folder [("home", .folder [("a", .file "x: integer;".toUTF8)])], ["home"], []⟩

/-- The first argument loads and the second does not; alone, the first has its output written. -/
theorem run_all_or_nothing_missing :
    run ["-vv", "build", "-o", "out", "a", "b"] oneScript =
      ⟨1, "", "[DEBUG] loaded script a (11 bytes)\n" ++
        "MT22 | ERROR | unknown location | Missing script at \"b\": " ++
        "No such file or directory (os error 2)\n", none, oneScript⟩ ∧
    let built := run ["build", "-o", "out", "a"] oneScript
    let text := "Program([\n\tVarDecl(x, IntegerType)\n])"
    oneScript.Leads "out" ["home", "out"] ∧ built.written = some ("out", text) ∧
      built.files.look ["home", "out"] = some (some text.toUTF8) := by
  constructor
  · have hmissing : ∃ a ∈ ["a", "b"], ∃ f, Fails oneScript a f :=
      ⟨"b", by simp, .unreadable "b" .notFound, .file (by decide) rfl⟩
    obtain ⟨pre, a, post, f, logs, -, -, -, hrun, -⟩ := (run_all_or_nothing
      ["-vv", "build", "-o", "out", "a", "b"] oneScript).1 2 (.build .text (some "out")) ["a", "b"]
      (by decide +kernel) hmissing
    -- the theorem gives all but the words of the fault
    have hstderr : (run ["-vv", "build", "-o", "out", "a", "b"] oneScript).stderr =
        "[DEBUG] loaded script a (11 bytes)\n" ++
        "MT22 | ERROR | unknown location | Missing script at \"b\": " ++
        "No such file or directory (os error 2)\n" := by
      decide +kernel
    rw [hrun] at hstderr ⊢
    rw [← hstderr]
  · obtain ⟨v, format, path, files, text, -, hleads, hwritten, hlook⟩ := (run_all_or_nothing
      ["build", "-o", "out", "a"] oneScript).2 ["home", "out"] (by decide +kernel)
    have hpinned : (run ["build", "-o", "out", "a"] oneScript).written =
        some ("out", "Program([\n\tVarDecl(x, IntegerType)\n])") := by
      decide +kernel
    rw [hwritten] at hpinned
    obtain ⟨rfl, rfl⟩ := Prod.mk.inj (Option.some.inj hpinned)
    exact ⟨hleads, hwritten, hlook⟩

end Mt22.Command
