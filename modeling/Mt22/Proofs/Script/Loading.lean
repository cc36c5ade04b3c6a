import Mathlib.Data.List.Forall2
import Mt22.Script.Load

/-!
# Which arguments load

An argument is a path or a pattern.  It loads the script in its file, or the scripts in all files that
match it (`Script.Loads`), and otherwise it fails for one reason (`Script.Fails`): its file cannot be
read, it is no pattern, it matches nothing, or there is a match that cannot be read or a folder that
cannot be listed, and the first of these is reported.

Arguments are loaded in order, up to the first that fails.  So either all load, and the scripts are
those of all arguments, or the fault is that of the first argument that fails
(`Script.loadArguments_of_loads`, `Script.loadArguments_of_fails`).
-/

namespace Mt22.Script

variable {fs : FileSystem} {a path : String} {s : Script} {ss : List Script} {f : LoadFault}

/-- The script is that of the file at the path. -/
structure InFile (fs : FileSystem) (path : String) (s : Script) : Prop where
  name_eq : s.name = pathName path
  path_eq : s.path = path
  read : fs.readText path = .ok s.content

/-- What was found is a file, and the script is that of the file. -/
def Found (fs : FileSystem) (x : Except String String) (s : Script) : Prop :=
  ∃ path, x = .ok path ∧ InFile fs path s

/-- The scripts that an argument stands for. -/
inductive Loads (fs : FileSystem) : String → List Script → Prop
  | file {a : String} {s : Script} (ha : isPattern a = false) (hs : InFile fs a s) : Loads fs a [s]
  | pattern {a : String} {p : Pattern} {ss : List Script} (ha : isPattern a = true)
      (hp : Pattern.parse a = .ok p) (hne : fs.find p ≠ [])
      (hss : List.Forall₂ (Found fs) (fs.find p) ss) : Loads fs a ss

/-- Why an argument stands for no scripts. -/
inductive Fails (fs : FileSystem) : String → LoadFault → Prop
  | file {a : String} {cause : FileFault} (ha : isPattern a = false)
      (h : fs.readText a = .error cause) : Fails fs a (.unreadable a cause)
  | badPattern {a : String} {cause : PatternFault} (ha : isPattern a = true)
      (hp : Pattern.parse a = .error cause) : Fails fs a (.badPattern a cause)
  | noMatch {a : String} {p : Pattern} (ha : isPattern a = true) (hp : Pattern.parse a = .ok p)
      (h : fs.find p = []) : Fails fs a (.noMatch a)
  /-- The matches before the one that is reported can be read. -/
  | unreadable {a path : String} {p : Pattern} {pre post : List (Except String String)}
      {ss : List Script} {cause : FileFault} (ha : isPattern a = true)
      (hp : Pattern.parse a = .ok p) (hfind : fs.find p = pre ++ .ok path :: post)
      (hpre : List.Forall₂ (Found fs) pre ss) (h : fs.readText path = .error cause) :
      Fails fs a (.unreadable path cause)
  /-- The matches before the folder can be read. -/
  | unlisted {a folder : String} {p : Pattern} {pre post : List (Except String String)}
      {ss : List Script} (ha : isPattern a = true) (hp : Pattern.parse a = .ok p)
      (hfind : fs.find p = pre ++ .error folder :: post)
      (hpre : List.Forall₂ (Found fs) pre ss) : Fails fs a (.unlisted folder)

/-- Either all members of a list have a counterpart, or there is a first that has not. -/
theorem forall₂_or_first {α β : Type} {R : α → β → Prop} {P : α → Prop}
    (h : ∀ a, (∃ b, R a b) ∨ P a) (as : List α) :
    (∃ bs, List.Forall₂ R as bs) ∨
      ∃ pre a post bs, as = pre ++ a :: post ∧ List.Forall₂ R pre bs ∧ P a := by
  induction as with
  | nil => exact .inl ⟨[], .nil⟩
  | cons a as ih =>
    rcases h a with ⟨b, hb⟩ | ha
    · rcases ih with ⟨bs, hbs⟩ | ⟨pre, c, post, bs, rfl, hbs, hc⟩
      · exact .inl ⟨b :: bs, .cons hb hbs⟩
      · exact .inr ⟨a :: pre, c, post, b :: bs, rfl, .cons hb hbs, hc⟩
    · exact .inr ⟨[], a, as, [], rfl, .nil, ha⟩

/-! ### Files -/

theorem load_of_inFile (h : InFile fs path s) : load fs path = .ok s := by
  obtain ⟨hname, hpath, hcontent⟩ := h
  rw [load, hcontent, ← hname, ← hpath]

theorem load_of_error {cause : FileFault} (h : fs.readText path = .error cause) :
    load fs path = .error (.unreadable path cause) := by
  rw [load, h]

theorem inFile_or_error (fs : FileSystem) (path : String) :
    (∃ s, InFile fs path s) ∨ ∃ cause, fs.readText path = .error cause := by
  cases h : fs.readText path with
  | ok content => exact .inl ⟨⟨pathName path, path, content⟩, rfl, rfl, h⟩
  | error cause => exact .inr ⟨cause, rfl⟩

variable {x : Except String String} {found : List (Except String String)}

theorem loadFound_of_found (h : Found fs x s) : loadFound fs x = .ok s := by
  obtain ⟨path, rfl, hs⟩ := h
  exact load_of_inFile hs

theorem found_or_error (fs : FileSystem) (x : Except String String) :
    (∃ s, Found fs x s) ∨ (∃ folder, x = .error folder) ∨
      ∃ path cause, x = .ok path ∧ fs.readText path = .error cause := by
  cases x with
  | error folder => exact .inr (.inl ⟨folder, rfl⟩)
  | ok path =>
    rcases inFile_or_error fs path with ⟨s, hs⟩ | ⟨cause, h⟩
    · exact .inl ⟨s, path, rfl, hs⟩
    · exact .inr (.inr ⟨path, cause, rfl, h⟩)

theorem forall_inFile (h : List.Forall₂ (Found fs) found ss) : ∀ s ∈ ss, InFile fs s.path s := by
  induction h with
  | nil => simp
  | cons hs _ ih =>
    obtain ⟨path, -, hs⟩ := hs
    exact List.forall_mem_cons.mpr ⟨hs.path_eq.symm ▸ hs, ih⟩

theorem loadAll_append (h : List.Forall₂ (Found fs) found ss)
    (rest : List (Except String String)) :
    loadAll fs (found ++ rest) = (Loading.mk ss none).andThen (loadAll fs rest) := by
  induction h with
  | nil => rfl
  | cons hs _ ih =>
    rw [List.cons_append, loadAll, loadFound_of_found hs, ih]
    rfl

theorem loadAll_of_found (h : List.Forall₂ (Found fs) found ss) : loadAll fs found = ⟨ss, none⟩ := by
  have hall := loadAll_append h []
  rw [List.append_nil] at hall
  rw [hall, loadAll, Loading.andThen, List.append_nil]

theorem loadAll_of_error {post : List (Except String String)}
    (hfound : List.Forall₂ (Found fs) found ss) (h : loadFound fs x = .error f) :
    loadAll fs (found ++ x :: post) = ⟨ss, some f⟩ := by
  rw [loadAll_append hfound, loadAll, h]
  exact congrArg (Loading.mk · _) (List.append_nil ss)

/-! ### Arguments -/

/-- What one argument loads. -/
def loadArgument (fs : FileSystem) (a : String) : Loading :=
  if isPattern a then discover fs a else loadAll fs [.ok a]

/-- A pattern that matches something loads all that it matches. -/
theorem discover_of_find {p : Pattern} (hp : Pattern.parse a = .ok p) (hne : fs.find p ≠ []) :
    discover fs a = loadAll fs (fs.find p) := by
  rw [discover, hp]
  cases hfind : fs.find p with
  | nil => exact absurd hfind hne
  | cons x found => simp only [hfind]

theorem loadArgument_of_loads (h : Loads fs a ss) : loadArgument fs a = ⟨ss, none⟩ := by
  rw [loadArgument]
  cases h with
  | file ha hs =>
    rw [if_neg (by rw [ha]; decide)]
    exact loadAll_of_found (.cons ⟨a, rfl, hs⟩ .nil)
  | pattern ha hp hne hss =>
    rw [if_pos ha, discover_of_find hp hne]
    exact loadAll_of_found hss

/-- The scripts that are loaded before an argument fails are in files. -/
theorem loadArgument_of_fails (h : Fails fs a f) :
    ∃ ss, (∀ s ∈ ss, InFile fs s.path s) ∧ loadArgument fs a = ⟨ss, some f⟩ := by
  rw [loadArgument]
  cases h with
  | file ha h =>
    rw [if_neg (by rw [ha]; decide)]
    exact ⟨[], by simp, loadAll_of_error .nil (load_of_error h)⟩
  | badPattern ha hp =>
    rw [if_pos ha, discover, hp]
    exact ⟨[], by simp, rfl⟩
  | noMatch ha hp h =>
    rw [if_pos ha, discover, hp]
    simp only [h]
    exact ⟨[], by simp, rfl⟩
  | @unreadable path p pre post ss cause ha hp hfind hpre h =>
    rw [if_pos ha, discover_of_find hp (by simp [hfind]), hfind]
    exact ⟨ss, forall_inFile hpre, loadAll_of_error hpre (load_of_error h)⟩
  | @unlisted folder p pre post ss ha hp hfind hpre =>
    rw [if_pos ha, discover_of_find hp (by simp [hfind]), hfind]
    exact ⟨ss, forall_inFile hpre, loadAll_of_error hpre rfl⟩

theorem Loads.not_fails (h : Loads fs a ss) : ¬ Fails fs a f := by
  intro hf
  obtain ⟨ss', -, hload⟩ := loadArgument_of_fails hf
  rw [loadArgument_of_loads h] at hload
  cases hload

theorem loads_or_fails (fs : FileSystem) (a : String) :
    (∃ ss, Loads fs a ss) ∨ ∃ f, Fails fs a f := by
  cases ha : isPattern a with
  | false =>
    rcases inFile_or_error fs a with ⟨s, hs⟩ | ⟨cause, h⟩
    · exact .inl ⟨[s], .file ha hs⟩
    · exact .inr ⟨_, .file ha h⟩
  | true =>
    cases hp : Pattern.parse a with
    | error cause => exact .inr ⟨_, .badPattern ha hp⟩
    | ok p =>
      by_cases hne : fs.find p = []
      · exact .inr ⟨_, .noMatch ha hp hne⟩
      · rcases forall₂_or_first (found_or_error fs) (fs.find p) with
          ⟨ss, hss⟩ | ⟨pre, x, post, ss, hfind, hpre, ⟨folder, rfl⟩ | ⟨path, cause, rfl, h⟩⟩
        · exact .inl ⟨ss, .pattern ha hp hne hss⟩
        · exact .inr ⟨_, .unlisted ha hp hfind hpre⟩
        · exact .inr ⟨_, .unreadable ha hp hfind hpre h⟩

/-! ### Lists of arguments -/

variable {files : List String} {sss : List (List Script)}

/-- All arguments load, or there is a first that fails. -/
theorem loads_or_first_fails (fs : FileSystem) (files : List String) :
    (∃ sss, List.Forall₂ (Loads fs) files sss) ∨
      ∃ pre a post sss, files = pre ++ a :: post ∧ List.Forall₂ (Loads fs) pre sss ∧
        ∃ f, Fails fs a f :=
  forall₂_or_first (loads_or_fails fs) files

theorem loadArguments_append (h : List.Forall₂ (Loads fs) files sss) (rest : List String) :
    loadArguments fs (files ++ rest) =
      (Loading.mk sss.flatten none).andThen (loadArguments fs rest) := by
  induction h with
  | nil => rfl
  | @cons a ss files sss hs _ ih =>
    have hstep : loadArguments fs (a :: (files ++ rest)) =
        (loadArgument fs a).andThen (loadArguments fs (files ++ rest)) := rfl
    rw [List.cons_append, hstep, loadArgument_of_loads hs, ih]
    cases hfault : (loadArguments fs rest).fault with
    | none => simp [Loading.andThen, hfault]
    | some f => simp [Loading.andThen, hfault]

theorem loadArguments_of_loads (h : List.Forall₂ (Loads fs) files sss) :
    loadArguments fs files = ⟨sss.flatten, none⟩ := by
  have hall := loadArguments_append h []
  rw [List.append_nil] at hall
  rw [hall, loadArguments, Loading.andThen, List.append_nil]

/-- Arguments stand for the same scripts whenever they are loaded. -/
theorem loads_unique {sss' : List (List Script)} (h : List.Forall₂ (Loads fs) files sss)
    (h' : List.Forall₂ (Loads fs) files sss') : sss.flatten = sss'.flatten := by
  have hload := loadArguments_of_loads h
  rw [loadArguments_of_loads h'] at hload
  exact (Loading.mk.inj hload).1.symm

/-- The fault is that of the first argument that fails, and the arguments after it do not matter. -/
theorem loadArguments_of_fails {pre : List String} (hpre : List.Forall₂ (Loads fs) pre sss)
    (ha : Fails fs a f) (post : List String) :
    ∃ ss, (∀ s ∈ ss, InFile fs s.path s) ∧
      loadArguments fs (pre ++ a :: post) = ⟨sss.flatten ++ ss, some f⟩ := by
  obtain ⟨ss, hss, hload⟩ := loadArgument_of_fails ha
  refine ⟨ss, hss, ?_⟩
  have hstep : loadArguments fs (a :: post) =
      (loadArgument fs a).andThen (loadArguments fs post) := rfl
  rw [loadArguments_append hpre, hstep, hload]
  rfl

theorem exists_loads_of_mem (h : List.Forall₂ (Loads fs) files sss) (ha : a ∈ files) :
    ∃ ss, Loads fs a ss := by
  induction h with
  | nil => cases ha
  | cons hs _ ih =>
    rcases List.mem_cons.mp ha with rfl | ha
    · exact ⟨_, hs⟩
    · exact ih ha

theorem forall_inFile_flatten (h : List.Forall₂ (Loads fs) files sss) :
    ∀ s ∈ sss.flatten, InFile fs s.path s := by
  induction h with
  | nil => simp
  | cons hs _ ih =>
    rw [List.flatten_cons]
    refine List.forall_mem_append.mpr ⟨?_, ih⟩
    cases hs with
    | file ha hs => exact forall_inFile (.cons ⟨_, rfl, hs⟩ .nil)
    | pattern ha hp hne hss => exact forall_inFile hss

end Mt22.Script
