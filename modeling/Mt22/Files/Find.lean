import Mt22.Files.Basic
import Mt22.Files.Pattern

/-!
# Finding files

`FileSystem.find` lists the files that match a pattern.  The components of the pattern are
followed one by one: a name is looked up, a name with wildcards is compared with the entries of
a folder, and `**` goes to everything below it.  Entries are taken in the order of their names,
and a folder comes before what is in it.  Where a folder cannot be listed, this is reported in the
place of its entries.

A path that is found is written as it was reached: with the `.` and `..` of the pattern, but
without the folder in which it started.
-/

namespace Mt22

/-- A place and how it is written; the folder where a relative pattern starts is not. -/
structure Spot where
  shown : Option String
  place : Place

namespace Spot

/-- How an entry of a spot is written. -/
def join (s : Spot) (name : String) : String :=
  match s.shown with
  | none => name
  | some path => if path.toList.getLast? = some '/' then path ++ name else path ++ "/" ++ name

def isFolder (s : Spot) : Bool := s.place.here.isFolder

/-- The name of the entry at a spot. -/
def name (s : Spot) : String := (s.place.above.head?.map (·.1)).getD ""

/-- An entry of a folder. -/
def child (s : Spot) (entry : String × Entry) : Spot :=
  ⟨some (s.join entry.1), ⟨entry.2, (entry.1, s.place.here) :: s.place.above⟩⟩

/-- How the folder at a spot is written in a report. -/
def written (s : Spot) : String := s.shown.getD "."

/-- The spot is a folder that cannot be listed. -/
def isClosed (closed : List (List String)) (s : Spot) : Bool := s.isFolder && s.place.names ∈ closed

/-- The entries of a folder, in the order of their names. -/
def children (s : Spot) : List Spot := s.place.here.entries.map s.child

/-- A spot reached by a component without wildcards. -/
def named? (s : Spot) (component : String) : Option Spot :=
  if !s.isFolder then none
  else if component = "." then
    some (if s.shown.isNone then s else ⟨some (s.join "."), s.place⟩)
  else if component = ".." then some ⟨some (s.join ".."), s.place.up⟩
  else if component = "" then
    if s.shown.isNone then none else some ⟨some (s.join ""), s.place⟩
  else (s.place.down? component).map fun p => ⟨some (s.join component), p⟩

/-- The folder itself and the one around it, for wildcards that start with a point and match
their names. -/
def dots (s : Spot) (tokens : List Pattern.Token) : List Spot :=
  if s.isFolder && tokens.head? = some (.char '.') then
    let around := Spot.mk (some (if s.shown.isNone then "./.." else s.join "..")) s.place.up
    let itself := if s.shown.isNone then s else ⟨some (s.join "."), s.place⟩
    [("..", around), (".", itself)].filterMap fun (name, spot) =>
      if Pattern.Token.matchAll tokens name.toList then some spot else none
  else []

mutual

/-- Everything below an entry that is at a spot: each entry, followed by what is below it.  A folder
that cannot be listed is reported in the place of its entries. -/
def belowEntry (closed : List (List String)) (shown : Option String)
    (above : List (String × Entry)) : Entry → List (Except String Spot)
  | .file _ => []
  | .folder entries =>
    let spot := Spot.mk shown ⟨.folder entries, above⟩
    if spot.isClosed closed then [.error spot.written]
    else belowEntries closed shown ⟨.folder entries, above⟩ entries

/-- Some entries of a place, each followed by what is below it. -/
def belowEntries (closed : List (List String)) (shown : Option String) (place : Place) :
    List (String × Entry) → List (Except String Spot)
  | [] => []
  | (name, e) :: rest =>
    let spot := (Spot.mk shown place).child (name, e)
    .ok spot :: (belowEntry closed spot.shown spot.place.above e ++
      belowEntries closed shown place rest)

end

/-- Everything below a spot. -/
def below (closed : List (List String)) (s : Spot) : List (Except String Spot) :=
  belowEntry closed s.shown s.place.above s.place.here

end Spot

namespace Pattern

/-- The spots that components lead to from a spot, and the folders on the way that cannot be
listed. -/
def follow (closed : List (List String)) : List Component → Spot → List (Except String Spot)
  | [], s => [.ok s]
  | .name component :: rest, s => (s.named? component).toList.flatMap (follow closed rest)
  | .wild tokens :: rest, s =>
    if s.isClosed closed then [.error s.written]
    else (s.dots tokens ++ s.children.filter fun c => Token.matchAll tokens c.name.toList).flatMap
      (follow closed rest)
  | [.folders], s => (s.below closed).filter fun
    | .ok b => b.isFolder
    | .error _ => true
  | .folders :: c :: rest, s => (s.below closed).flatMap fun
    | .ok b => if c.matchesName b.name then follow closed rest b else []
    | .error folder => [.error folder]

end Pattern

namespace FileSystem

/-- The spot where a pattern starts. -/
def patternOrigin (fs : FileSystem) (p : Pattern) : Spot :=
  if p.absolute then ⟨some "/", fs.rootPlace⟩ else ⟨none, fs.homePlace⟩

/-- The paths of the files that match a pattern, and those of the folders on the way that cannot be
listed, in order. -/
def find (fs : FileSystem) (p : Pattern) : List (Except String String) :=
  (Pattern.follow fs.closed p.components (fs.patternOrigin p)).filterMap fun
    | .ok s => if p.foldersOnly || s.isFolder then none else s.shown.map .ok
    | .error folder => some (.error folder)

end FileSystem

end Mt22
