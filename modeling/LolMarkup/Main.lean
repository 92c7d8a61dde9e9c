import LolMarkup.CommandLine.Run

/-!
# The command line program

The program looks up on disk what a run can depend on, carries out the run on that picture of the
disk, and then writes what the run has changed.
-/

namespace LolMarkup.CommandLine

/-- The paths that a run with the given arguments may read or write. -/
def concerned (here : Path) (arguments : List String) : List Path :=
  match Command.ofArguments arguments with
  | .ok (.compile request) =>
      let entry := here.resolve request.entry
      let primary := request.primary here
      entry.ancestors ++ [entry] ++ primary.ancestors ++
        [".html", ".tokens.txt", ".ast.json"].map primary.withExtension
  | _ => []

/-- What stands at a path on disk. -/
def entryOnDisk (path : Path) : IO (Option Entry) := do
  let onDisk := (← IO.currentDir) / path.toString
  if ← onDisk.isDir then return some .directory
  else if ← onDisk.pathExists then
    return some (.file (← IO.FS.readBinFile onDisk).toList)
  else return none

/-- The file system as far as the given paths show it. -/
def loaded (paths : List Path) : IO FileSystem :=
  paths.foldlM (fun files path => do
    match ← entryOnDisk path with
    | some entry => return files.insert path entry
    | none => return files) .empty

/-- Write one change to disk. -/
def store : Path × Entry → IO Unit
  | (path, .directory) => IO.FS.createDirAll path.toString
  | (path, .file bytes) => IO.FS.writeBinFile path.toString ⟨bytes.toArray⟩

end LolMarkup.CommandLine

open LolMarkup LolMarkup.CommandLine in
/-- Run the command line on the disk and exit with its code. -/
def main (arguments : List String) : IO UInt32 := do
  let here := Path.resolve ⟨[]⟩ (← IO.currentDir).toString
  let before ← loaded (concerned here arguments)
  let outcome := run here before arguments
  (before.changes outcome.files).forM store
  IO.print outcome.stdout
  IO.eprint outcome.stderr
  return outcome.code.toUInt32
