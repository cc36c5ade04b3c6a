import Mt22.Command.Run

/-!
# The command line

The command works on a file system that is a value.  Here the part of the disk that the
arguments name is copied into such a value, the command is run on it, and what it printed and
wrote is passed on.
-/

namespace Mt22.Disk

/-- The entry of the disk at a path. -/
def entryAt (path : String) : IO.FS.DirEntry := ⟨".", path⟩

/-- Copies a file, or a folder with all that is in it if `deep`, into a file system.  A file that
cannot be read is left out. -/
partial def copy (deep : Bool) (fs : FileSystem) (path : String) : IO FileSystem := do
  let place := (entryAt path).path
  if ← place.isDir then
    let made := (fs.makeFolders path).toOption.getD fs
    if !deep then return made
    let listed ← try pure (some (← place.readDir)) catch _ => pure none
    match listed with
    | some entries => entries.foldlM (fun fs e => copy deep fs (path ++ "/" ++ e.fileName)) made
    | none => return made.close path
  else
    try
      let bytes ← IO.FS.readBinFile place
      return (fs.writeDeep path bytes).toOption.getD fs
    catch _ => return fs

/-- Copies what a file argument can name: the file, or for a pattern all that is below its last
folder without wildcards. -/
def copyArgument (fs : FileSystem) (argument : String) : IO FileSystem :=
  if Script.isPattern argument then
    let fixed := (pathComponents argument).takeWhile (!Script.isPattern ·)
    copy true fs (if fixed.isEmpty then "." else "/".intercalate fixed ++ "/")
  else copy false fs argument

/-- Copies the folder around a file that is to be written, and the file if it exists. -/
def copyOutput (fs : FileSystem) (path : String) : IO FileSystem := do
  let around := (pathComponents path).dropLast
  let fs ← if around.isEmpty then pure fs else copy false fs ("/".intercalate around ++ "/")
  copy false fs path

/-- The part of the disk that a command line names. -/
def copyFor (invocation : Invocation) : IO FileSystem := do
  let home := (pathComponents (← IO.currentDir).toString).filter (· != "")
  let fs := FileSystem.ofHome home
  match invocation with
  | .run _ task files =>
    let fs ← files.foldlM copyArgument fs
    match task with
    | .build _ (some path) => copyOutput fs path
    | _ => return fs
  | _ => return fs

end Mt22.Disk

/-- Runs the command line on the disk. -/
def main (args : List String) : IO UInt32 := do
  let fs ← Mt22.Disk.copyFor (Mt22.Invocation.parse args)
  let ending := Mt22.Command.run args fs
  IO.eprint ending.stderr
  IO.print ending.stdout
  if let some (path, text) := ending.written then
    IO.FS.writeFile (Mt22.Disk.entryAt path).path text
  return ending.code.toUInt32
