import LolMarkup.Path
import LolMarkup.Text.Units

/-!
# File systems

A file system says what stands at each path: a directory, or a file with its bytes. The root is
always a directory. Operations answer with a new file system or with the error that a system
reports.
-/

namespace LolMarkup

/-- What may stand at a path. -/
inductive Entry where
  | directory
  | file (bytes : List UInt8)
deriving DecidableEq, Repr

/-- The reasons for which an operation on a file system fails. -/
inductive SystemFault where
  | missing
  | notDirectory
  | isDirectory
  | alreadyExists
deriving DecidableEq, Repr

/-- The operations on a file system that can fail. A read concerns a file that is already open, so
its path is not reported. -/
inductive SystemCall where
  | openFile (path : Path)
  | readFile
  | makeDirectory (path : Path)
deriving DecidableEq, Repr

/-- A failed operation with the reason. -/
structure SystemError where
  fault : SystemFault
  call : SystemCall
deriving DecidableEq, Repr

/-- The text of a reason. -/
def SystemFault.text : SystemFault → String
  | missing => "ENOENT: no such file or directory"
  | notDirectory => "ENOTDIR: not a directory"
  | isDirectory => "EISDIR: illegal operation on a directory"
  | alreadyExists => "EEXIST: file already exists"

/-- The text of an operation. -/
def SystemCall.text : SystemCall → String
  | openFile path => s!"open '{path.toString}'"
  | readFile => "read"
  | makeDirectory path => s!"mkdir '{path.toString}'"

/-- The text that a system reports for an error. -/
def SystemError.message (e : SystemError) : String :=
  s!"{e.fault.text}, {e.call.text}"

/-- A file system as a table of what stands where. Of several entries for a path the first
counts. -/
structure FileSystem where
  entries : List (Path × Entry)
deriving DecidableEq, Repr

namespace FileSystem

/-- The file system with nothing but the root. -/
def empty : FileSystem := ⟨[]⟩

/-- What stands at a path. -/
def get? (files : FileSystem) (path : Path) : Option Entry :=
  if path.names = [] then some .directory else files.entries.lookup path

/-- Whether a file stands at a path. -/
def isFile (files : FileSystem) (path : Path) : Bool :=
  match files.get? path with
  | some (.file _) => true
  | _ => false

/-- Put an entry at a path in place of what stands there. -/
def insert (files : FileSystem) (path : Path) (entry : Entry) : FileSystem :=
  ⟨(path, entry) :: files.entries.filter (·.1 ≠ path)⟩

/-- Make a directory at a path where nothing stands. -/
def addDirectory (files : FileSystem) (path : Path) : FileSystem :=
  if (files.get? path).isSome then files else files.insert path .directory

/-- Put an entry at a path and make the directories above it. -/
def place (files : FileSystem) (path : Path) (entry : Entry) : FileSystem :=
  (path.ancestors.foldl addDirectory files).insert path entry

/-- Whether a path leads through a file. -/
def throughFile (files : FileSystem) (path : Path) : Bool :=
  path.ancestors.any files.isFile

/-- The bytes of the file at a path. -/
def read (files : FileSystem) (path : Path) : Except SystemError (List UInt8) :=
  if files.throughFile path then .error ⟨.notDirectory, .openFile path⟩
  else
    match files.get? path with
    | some (.file bytes) => .ok bytes
    | some .directory => .error ⟨.isDirectory, .readFile⟩
    | none => .error ⟨.missing, .openFile path⟩

/-- Make a directory together with those above it that are missing. -/
def makeDirectories (files : FileSystem) (path : Path) : Except SystemError FileSystem :=
  if files.throughFile path then .error ⟨.notDirectory, .makeDirectory path⟩
  else if files.isFile path then .error ⟨.alreadyExists, .makeDirectory path⟩
  else .ok ((path.ancestors ++ [path]).foldl addDirectory files)

/-- Write a file into an existing directory, in place of a file of the same name. -/
def write (files : FileSystem) (path : Path) (bytes : List UInt8) :
    Except SystemError FileSystem :=
  match files.get? path with
  | some .directory => .error ⟨.isDirectory, .openFile path⟩
  | _ => .ok (files.insert path (.file bytes))

/-- Write several files. A file that cannot be written does not keep the others from being written;
the first error is reported. -/
def writeAll (files : FileSystem) : List (Path × List UInt8) → FileSystem × Option SystemError
  | [] => (files, none)
  | (path, bytes) :: rest =>
      match files.write path bytes with
      | .ok written => written.writeAll rest
      | .error e => ((files.writeAll rest).1, some e)

/-- What stands in the second file system and not in the first, in the order of the written
paths. -/
def changes (before after : FileSystem) : List (Path × Entry) :=
  let changed := after.entries.filter fun (path, entry) => before.get? path ≠ some entry
  changed.mergeSort fun a b => Text.unitsLe a.1.toString b.1.toString

end FileSystem

end LolMarkup
