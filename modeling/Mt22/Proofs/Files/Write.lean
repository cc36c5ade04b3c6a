import Mt22.Files.Basic

/-!
# What writing a file changes

A file system is looked at by the names that lead down from its outermost folder: there is a file with
some bytes, a folder, or nothing (`FileSystem.look`).  A path leads to such names as well, also where
there is nothing yet (`FileSystem.Leads`).  Writing to a path changes what is seen at the names that it
leads to, and nothing else (`FileSystem.look_write`).

The names that a path leads to are found on the way along its components.  The invariant of this way
is that every place on it is where its names lead (`Place.Sited`).
-/

namespace Mt22

namespace Entry

variable {name m : String} {new : Entry} {es : List (String × Entry)}

theorem get?_put : (folder (put name new es)).get? name = some new := by
  induction es with
  | nil => simp [get?, put, entries]
  | cons p es ih =>
    obtain ⟨n, e⟩ := p
    rw [put]
    split
    · simp [get?, entries]
    · next hne =>
      split
      · simp [get?, entries]
      · simpa [get?, entries, Ne.symm hne] using ih

/-- Entries with other names stay as they are. -/
theorem get?_put_of_ne (h : m ≠ name) :
    (folder (put name new es)).get? m = (folder es).get? m := by
  induction es with
  | nil => simp [get?, put, entries, Ne.symm h]
  | cons p es ih =>
    obtain ⟨n, e⟩ := p
    rw [put]
    split
    · next hn => simp [get?, entries, ← hn, Ne.symm h]
    · split
      · simp [get?, entries, Ne.symm h]
      · by_cases hm : n = m
        · simp [get?, entries, hm]
        · simpa [get?, entries, hm] using ih

theorem get?_of_not_isFolder {e : Entry} (h : e.isFolder = false) : e.get? name = none := by
  cases e with
  | file => rfl
  | folder => cases h

theorem isFolder_of_get? {e c : Entry} (h : e.get? name = some c) : e.isFolder = true := by
  cases e with
  | file => cases h
  | folder => rfl

/-- The entry that names lead to. -/
def walk? (e : Entry) : List String → Option Entry
  | [] => some e
  | name :: names => (e.get? name).bind (·.walk? names)

theorem walk?_append (e : Entry) (ns ms : List String) :
    e.walk? (ns ++ ms) = (e.walk? ns).bind (·.walk? ms) := by
  induction ns generalizing e with
  | nil => rfl
  | cons n ns ih =>
    rw [List.cons_append, walk?, walk?]
    cases e.get? n with
    | none => rfl
    | some c => exact ih c

/-- The bytes of a file; a folder has none. -/
def bytes? : Entry → Option ByteArray
  | file bytes => some bytes
  | folder _ => none

/-- What is seen at the end of names: a file with its bytes, a folder, or nothing. -/
def look (e : Entry) (names : List String) : Option (Option ByteArray) :=
  (e.walk? names).map bytes?

theorem look_nil (e : Entry) : e.look [] = some e.bytes? := rfl

theorem look_cons (e : Entry) (name : String) (names : List String) :
    e.look (name :: names) = (e.get? name).bind (·.look names) := by
  rw [look, walk?]
  cases e.get? name <;> rfl

/-- Below a file nothing is seen, and below nothing neither. -/
theorem look_below {e : Entry} {names : List String} (hne : names ≠ [])
    (h : ∀ c, e.get? name = some c → c.isFolder = false) : e.look (name :: names) = none := by
  rw [look_cons]
  cases hc : e.get? name with
  | none => rfl
  | some c =>
    obtain ⟨n, ns, rfl⟩ := List.exists_cons_of_ne_nil hne
    rw [Option.bind_some, look_cons, get?_of_not_isFolder (h c hc)]
    rfl

/-- Nothing but the file at the end of the names is changed by a file that is put there in a folder,
unless there is a folder in its place. -/
theorem look_change (bytes : ByteArray) {dir : List String} {root d : Entry}
    (hd : root.walk? dir = some d) (hfolder : d.isFolder = true)
    (hfile : ∀ c, d.get? name = some c → c.isFolder = false) :
    ∃ root', change (fun _ => some (file bytes)) (dir ++ [name]) (some root) = some root' ∧
      ∀ ns, root'.look ns = if ns = dir ++ [name] then some (some bytes) else root.look ns := by
  -- along the folders that lead to the file; each of them gets one new entry
  induction dir generalizing root with
  | nil =>
    obtain rfl : root = d := Option.some.inj hd
    refine ⟨folder (put name (file bytes) root.entries), rfl, fun ns => ?_⟩
    cases root with
    | file => cases hfolder
    | folder es =>
      cases ns with
      | nil => rfl
      | cons n ns =>
        by_cases hn : n = name
        · subst hn
          rw [look_cons, entries, get?_put, Option.bind_some]
          by_cases hns : ns = []
          · subst hns
            simp [look_nil, bytes?]
          · rw [if_neg (by simp [hns]), look_below hns hfile]
            obtain ⟨k, ks, rfl⟩ := List.exists_cons_of_ne_nil hns
            rfl
        · rw [if_neg (by simp [hn]), look_cons, look_cons, entries, get?_put_of_ne hn]
  | cons m dir ih =>
    rw [walk?] at hd
    obtain ⟨c, hc, hd⟩ := Option.bind_eq_some_iff.mp hd
    obtain ⟨c', hchange, hlook⟩ := ih hd
    refine ⟨folder (put m c' root.entries), ?_, fun ns => ?_⟩
    · rw [List.cons_append, change]
      simp only [Option.getD_some, hc, hchange]
    · have hroot := isFolder_of_get? hc
      cases root with
      | file => cases hroot
      | folder es =>
        cases ns with
        | nil => rfl
        | cons n ns =>
          by_cases hn : n = m
          · subst hn
            rw [look_cons, look_cons, entries, get?_put, hc, Option.bind_some, Option.bind_some,
              hlook]
            simp only [List.cons_append, List.cons.injEq, true_and]
          · rw [if_neg (by simp [hn]), look_cons, look_cons, entries, get?_put_of_ne hn]

end Entry

/-! ### Places -/

namespace Place

/-- The place is reached from the outermost folder by going down. -/
inductive Sited (root : Entry) : Place → Prop
  | root : Sited root ⟨root, []⟩
  | down {p : Place} {name : String} {e : Entry} (hp : Sited root p)
      (he : p.here.get? name = some e) : Sited root ⟨e, (name, p.here) :: p.above⟩

variable {root : Entry} {p q : Place}

/-- The names of a place lead to it. -/
theorem Sited.walk? (h : Sited root p) : root.walk? p.names = some p.here := by
  induction h with
  | root => rfl
  | @down p name e hp he ih =>
    rw [names, List.map_cons, List.reverse_cons, Entry.walk?_append]
    change (root.walk? p.names).bind _ = _
    rw [ih, Option.bind_some, Entry.walk?, he]
    rfl

theorem Sited.up (h : Sited root p) : Sited root p.up := by
  cases h with
  | root => exact .root
  | down hp _ => exact hp

theorem Sited.down? {name : String} (h : Sited root p) (hq : p.down? name = some q) :
    Sited root q := by
  obtain ⟨e, he, rfl⟩ := Option.map_eq_some_iff.mp hq
  exact .down h he

theorem Sited.step {component : String} (h : Sited root p) (hq : p.step component = .ok q) :
    Sited root q := by
  rw [Place.step] at hq
  split at hq
  · cases hq
  · split at hq
    · cases hq
      exact h
    · split at hq
      · cases hq
        exact h.up
      · cases hd : p.down? component with
        | none => rw [hd] at hq; cases hq
        | some d =>
          rw [hd] at hq
          cases hq
          exact h.down? hd

theorem Sited.steps {components : List String} (h : Sited root p)
    (hq : components.foldlM Place.step p = .ok q) : Sited root q := by
  induction components generalizing p with
  | nil =>
    cases hq
    exact h
  | cons c cs ih =>
    rw [List.foldlM_cons] at hq
    cases hc : p.step c with
    | error e => rw [hc] at hq; cases hq
    | ok p' =>
      rw [hc] at hq
      exact ih (h.step hc) hq

end Place

/-! ### Files -/

namespace FileSystem

variable {fs fs' : FileSystem} {path : String} {bytes : ByteArray}

/-- What is seen at the end of names that lead down from the outermost folder. -/
def look (fs : FileSystem) (names : List String) : Option (Option ByteArray) := fs.root.look names

theorem sited_homePlace (fs : FileSystem) : Place.Sited fs.root fs.homePlace := by
  have h : ∀ (names : List String) (p : Place), Place.Sited fs.root p →
      Place.Sited fs.root (names.foldl (fun p name => (p.down? name).getD p) p) := by
    intro names
    induction names with
    | nil => exact fun _ hp => hp
    | cons n names ih =>
      intro p hp
      rw [List.foldl_cons]
      refine ih _ ?_
      cases hd : p.down? n with
      | none => exact hp
      | some d => exact hp.down? hd
  exact h fs.home fs.rootPlace .root

theorem sited_origin (fs : FileSystem) (path : String) :
    Place.Sited fs.root (fs.origin path) := by
  rw [origin]
  split
  · exact .root
  · exact fs.sited_homePlace

/-- The path leads to the names: those of the folder to which all components but the last one lead,
and the last one. -/
def Leads (fs : FileSystem) (path : String) (names : List String) : Prop :=
  ∃ (components : List String) (last : String) (dir : Place),
    pathComponents path = components ++ [last] ∧ last ∉ ["", ".", ".."] ∧
    components.foldlM Place.step (fs.origin path) = .ok dir ∧ dir.here.isFolder = true ∧
    names = dir.names ++ [last]

/-- A path without a separator at its end, split at its last component. -/
theorem eq_of_splitName {last : String} {parents : List String}
    (h : splitName path = (last :: parents, false)) :
    pathComponents path = parents.reverse ++ [last] ∧ last ≠ "" := by
  obtain ⟨hdrop, hhead⟩ := Prod.mk.inj h
  have hlast : last ≠ "" := by
    intro hlast
    have hnot := List.head?_dropWhile_not (p := fun s : String => decide (s = ""))
      (l := (pathComponents path).reverse)
    rw [hdrop] at hnot
    simp [hlast] at hnot
  refine ⟨?_, hlast⟩
  cases hr : (pathComponents path).reverse with
  | nil => rw [hr] at hdrop; cases hdrop
  | cons c cs =>
    rw [hr] at hdrop hhead
    have hc : c ≠ "" := by simpa using hhead
    rw [List.dropWhile_cons_of_neg (by simpa using hc)] at hdrop
    rw [← List.reverse_reverse (pathComponents path), hr, hdrop, List.reverse_cons]

/-- A computation that goes on has passed its check. -/
theorem passed_of_ok {α β : Type} {c : Prop} [Decidable c] {e : FileFault}
    {f : β → Except FileFault α} {x : Except FileFault α} {r : α}
    (h : (if c then (throw e : Except FileFault β) >>= f else x) = .ok r) : ¬ c ∧ x = .ok r := by
  by_cases hc : c
  · rw [if_pos hc] at h
    cases h
  · rw [if_neg hc] at h
    exact ⟨hc, h⟩

theorem isOk_of_check {α β : Type} {c : Prop} [Decidable c] {e : FileFault}
    {f g : β → Except FileFault α} {x y : Except FileFault α} (h : x.isOk = y.isOk) :
    (if c then (throw e : Except FileFault β) >>= f else x).isOk =
      (if c then (throw e : Except FileFault β) >>= g else y).isOk := by
  by_cases hc : c
  · rw [if_pos hc, if_pos hc]
    rfl
  · rw [if_neg hc, if_neg hc, h]

/-- Whether a file can be written does not depend on what is written. -/
theorem write_isOk (fs : FileSystem) (path : String) (bytes bytes' : ByteArray) :
    (fs.write path bytes).isOk = (fs.write path bytes').isOk := by
  rw [write, write]
  dsimp only
  refine isOk_of_check (isOk_of_check ?_)
  rcases splitName path with ⟨_ | ⟨last, parents⟩, separated⟩
  · rfl
  dsimp only
  cases parents.reverse.foldlM Place.step (fs.origin path) with
  | error e => rfl
  | ok dir =>
    refine isOk_of_check (isOk_of_check ?_)
    cases dir.here.get? last with
    | none => cases separated <;> rfl
    | some c => cases c <;> cases separated <;> rfl

/-- A file that is written is put under its last name into a folder, where no folder has this name. -/
theorem write_ok (h : fs.write path bytes = .ok fs') :
    ∃ last parents dir, splitName path = (last :: parents, false) ∧
      parents.reverse.foldlM Place.step (fs.origin path) = .ok dir ∧ dir.here.isFolder = true ∧
      last ∉ [".", ".."] ∧ (∀ c, dir.here.get? last = some c → c.isFolder = false) ∧
      fs' = fs.change (dir.names ++ [last]) fun _ => some (.file bytes) := by
  rw [write] at h
  dsimp only at h
  obtain ⟨-, h⟩ := passed_of_ok h
  obtain ⟨-, h⟩ := passed_of_ok h
  rcases hsplit : splitName path with ⟨_ | ⟨last, parents⟩, separated⟩
  · rw [hsplit] at h
    cases h
  rw [hsplit] at h
  dsimp only at h
  cases hdir : parents.reverse.foldlM Place.step (fs.origin path) with
  | error e => rw [hdir] at h; cases h
  | ok dir =>
    rw [hdir] at h
    obtain ⟨hnot, h⟩ := passed_of_ok h
    obtain ⟨hdots, h⟩ := passed_of_ok h
    have hfolder : dir.here.isFolder = true := by simpa using hnot
    have hdots : last ∉ [".", ".."] := by simpa using hdots
    -- a separator at the end is refused whether or not there is a file
    cases separated with
    | true =>
      cases hget : dir.here.get? last with
      | none => rw [hget] at h; cases h
      | some c => rw [hget] at h; cases c <;> cases h
    | false =>
      refine ⟨last, parents, dir, rfl, hdir, hfolder, hdots, ?_⟩
      cases hget : dir.here.get? last with
      | none =>
        rw [hget] at h
        cases h
        exact ⟨fun c hc => (by cases hc), rfl⟩
      | some c =>
        rw [hget] at h
        cases c with
        | folder => cases h
        | file =>
          cases h
          refine ⟨?_, rfl⟩
          rintro c ⟨⟩
          rfl

/-- **Writing changes one file.**  Where a path is written to, it leads to the one place at which
something else may be seen afterwards, the file with the new bytes. -/
theorem look_write (h : fs.write path bytes = .ok fs') :
    ∃ names, fs.Leads path names ∧
      ∀ ns, fs'.look ns = if ns = names then some (some bytes) else fs.look ns := by
  obtain ⟨last, parents, dir, hsplit, hdir, hfolder, hdots, hfile, rfl⟩ := write_ok h
  obtain ⟨hpath, hlast⟩ := eq_of_splitName hsplit
  have hwalk := ((fs.sited_origin path).steps hdir).walk?
  obtain ⟨root', hchange, hlook⟩ := Entry.look_change bytes hwalk hfolder hfile
  refine ⟨dir.names ++ [last], ⟨_, last, dir, hpath, by simpa [hlast] using hdots, hdir, hfolder, rfl⟩,
    fun ns => ?_⟩
  rw [look, change, hchange]
  exact hlook ns

end FileSystem

end Mt22
