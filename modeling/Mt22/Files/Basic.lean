/-!
# Files and folders

A file system as a value: a tree of folders and files, with one folder that relative paths start
from and some folders that can be entered but not listed.  Paths are read as a system with `/` between names reads them: `.` stays, `..` goes to the
enclosing folder, and an empty component, at the end of a path or between two separators, stays
as well; but all three need a folder to stand in.

* `FileSystem.resolve`: the place that a path leads to.
* `FileSystem.readText`, `write`, `makeFolders`, `remove`: what can be done there.
-/

namespace Mt22

/-- A file with its bytes, or a folder with its entries in the order of their names. -/
inductive Entry where
  | file (bytes : ByteArray)
  | folder (entries : List (String × Entry))

namespace Entry

def isFolder : Entry → Bool
  | folder _ => true
  | file _ => false

/-- The entries of a folder. -/
def entries : Entry → List (String × Entry)
  | folder es => es
  | file _ => []

/-- The entry with a name. -/
def get? (e : Entry) (name : String) : Option Entry := (e.entries.find? (·.1 = name)).map (·.2)

/-- Puts an entry under a name, in its place in the order, instead of any that had the name. -/
def put (name : String) (new : Entry) : List (String × Entry) → List (String × Entry)
  | [] => [(name, new)]
  | (n, e) :: rest =>
    if name = n then (name, new) :: rest
    else if name < n then (name, new) :: (n, e) :: rest
    else (n, e) :: put name new rest

/-- Changes the entry that a list of names leads to; `none` stands for no entry.  Folders on the
way are made where they are missing. -/
def change (f : Option Entry → Option Entry) : List String → Option Entry → Option Entry
  | [], e => f e
  | name :: names, e =>
    let folder := e.getD (.folder [])
    match change f names (folder.get? name) with
    | some new => some (.folder (put name new folder.entries))
    | none => some (.folder (folder.entries.filter (·.1 != name)))

end Entry

/-- Why a file cannot be read or written. -/
inductive FileFault where
  | notFound
  | notFolder
  | isFolder
  | notText
  | nulInName
deriving DecidableEq

def FileFault.message : FileFault → String
  | notFound => "No such file or directory (os error 2)"
  | notFolder => "Not a directory (os error 20)"
  | isFolder => "Is a directory (os error 21)"
  | notText => "stream did not contain valid UTF-8"
  | nulInName => "file name contained an unexpected NUL byte"

/-- An entry in its file system: the entry, and the folders around it with the names that lead
down to it, the nearest first. -/
structure Place where
  here : Entry
  above : List (String × Entry)

namespace Place

/-- The folder around a place; the outermost folder is around itself. -/
def up (p : Place) : Place :=
  match p.above with
  | [] => p
  | (_, e) :: rest => ⟨e, rest⟩

/-- The entry with a name in a place. -/
def down? (p : Place) (name : String) : Option Place :=
  (p.here.get? name).map fun e => ⟨e, (name, p.here) :: p.above⟩

/-- The names that lead to a place from the outermost folder. -/
def names (p : Place) : List String := (p.above.map (·.1)).reverse

/-- One component of a path. -/
def step (p : Place) (component : String) : Except FileFault Place :=
  if !p.here.isFolder then .error .notFolder
  else if component = "" || component = "." then .ok p
  else if component = ".." then .ok p.up
  else (p.down? component).elim (.error .notFound) .ok

end Place

/-- The components of a path, empty ones included. -/
def pathComponents (path : String) : List String :=
  (path.toList.splitOn '/').map String.ofList

/-- The last name of a path. -/
def pathName (path : String) : String := (pathComponents path).getLast?.getD ""

/-- A path leads from the outermost folder. -/
def isAbsolute (path : String) : Bool := path.toList.head? = some '/'

/-- A tree of entries, the names that lead to the folder in which relative paths start, and those
that lead to the folders that cannot be listed. -/
structure FileSystem where
  root : Entry
  home : List String
  closed : List (List String)

namespace FileSystem

/-- A file system that holds nothing but the empty folder that is home. -/
def ofHome (names : List String) : FileSystem :=
  ⟨(Entry.change (fun _ => some (.folder [])) names none).getD (.folder []), names, []⟩

/-- A file system in which one empty folder is home. -/
def empty : FileSystem := ofHome ["home"]

/-- The outermost folder. -/
def rootPlace (fs : FileSystem) : Place := ⟨fs.root, []⟩

/-- The place where relative paths start. -/
def homePlace (fs : FileSystem) : Place :=
  fs.home.foldl (fun p name => (p.down? name).getD p) fs.rootPlace

/-- The place where a path starts. -/
def origin (fs : FileSystem) (path : String) : Place :=
  if isAbsolute path then fs.rootPlace else fs.homePlace

/-- The place that a path leads to. -/
def resolve (fs : FileSystem) (path : String) : Except FileFault Place := do
  if path.toList.contains '\x00' then throw .nulInName
  if path.isEmpty then throw .notFound
  (pathComponents path).foldlM Place.step (fs.origin path)

/-- The text of a file. -/
def readText (fs : FileSystem) (path : String) : Except FileFault String := do
  match (← fs.resolve path).here with
  | .folder _ => throw .isFolder
  | .file bytes => (String.fromUTF8? bytes).elim (throw .notText) pure

/-- Changes the entry that names lead to from the outermost folder. -/
def change (fs : FileSystem) (names : List String) (f : Option Entry → Option Entry) :
    FileSystem :=
  { fs with root := (Entry.change f names (some fs.root)).getD (.folder []) }

/-- The components of a path up to its last name, the last name first, and whether separators
follow that name. -/
def splitName (path : String) : List String × Bool :=
  let reversed := (pathComponents path).reverse
  (reversed.dropWhile (· = ""), reversed.head? = some "")

/-- Writes a file, in place of any that is there.  The folder around it must exist, and the path
must not end in a separator. -/
def write (fs : FileSystem) (path : String) (bytes : ByteArray) : Except FileFault FileSystem := do
  if path.toList.contains '\x00' then throw .nulInName
  if path.isEmpty then throw .notFound
  match splitName path with
  | ([], _) => throw .isFolder
  | (name :: parents, separated) =>
    let parent ← parents.reverse.foldlM Place.step (fs.origin path)
    if !parent.here.isFolder then throw .notFolder
    if name = "." || name = ".." then throw .isFolder
    match parent.here.get? name with
    | some (.folder _) => throw .isFolder
    | some (.file _) => if separated then throw .notFolder
    | none => if separated then throw .isFolder
    return fs.change (parent.names ++ [name]) fun _ => some (.file bytes)

/-- One component of a path, with a folder made where nothing is. -/
def stepMaking (state : FileSystem × Place) (component : String) :
    Except FileFault (FileSystem × Place) :=
  let (fs, p) := state
  match p.step component with
  | .ok q => .ok (fs, q)
  | .error .notFound =>
    let made := Entry.folder []
    let here := Entry.folder (Entry.put component made p.here.entries)
    .ok (fs.change (p.names ++ [component]) fun _ => some made,
      ⟨made, (component, here) :: p.above⟩)
  | .error e => .error e

/-- Makes the folder that components lead to, and the folders on the way. -/
def makeFoldersAt (fs : FileSystem) (start : Place) (components : List String) :
    Except FileFault FileSystem := do
  let (made, p) ← components.foldlM stepMaking (fs, start)
  if p.here.isFolder then return made else throw .notFolder

/-- Makes the folder at a path, and the folders on the way. -/
def makeFolders (fs : FileSystem) (path : String) : Except FileFault FileSystem :=
  if path.toList.contains '\x00' then .error .nulInName
  else fs.makeFoldersAt (fs.origin path) (pathComponents path)

/-- Writes a file, and makes the folders on the way to it. -/
def writeDeep (fs : FileSystem) (path : String) (bytes : ByteArray) :
    Except FileFault FileSystem := do
  if path.toList.contains '\x00' then throw .nulInName
  let parents := (splitName path).1.drop 1
  let made ← fs.makeFoldersAt (fs.origin path) parents.reverse
  made.write path bytes

/-- From now on the folder at a path cannot be listed. -/
def close (fs : FileSystem) (path : String) : FileSystem :=
  match fs.resolve path with
  | .ok p => { fs with closed := p.names :: fs.closed }
  | .error _ => fs

/-- Removes a file. -/
def remove (fs : FileSystem) (path : String) : Except FileFault FileSystem := do
  let p ← fs.resolve path
  if p.here.isFolder then throw .isFolder
  return fs.change p.names fun _ => none

end FileSystem

end Mt22
