/-!
# Paths

A path is absolute and in normal form: the list of names that lead to it from the root. A written
path may be relative and may hold empty parts, `.` and `..`; it is resolved against a directory. The
backslash is a character like any other, except where a path is recorded with forward slashes.
-/

namespace LolMarkup

/-- An absolute path, as the names from the root down. -/
structure Path where
  names : List String
deriving DecidableEq, Repr

namespace Path

/-- The parts of a written path between its slashes. -/
def parts : List Char → List (List Char)
  | [] => [[]]
  | c :: cs =>
      match c, parts cs with
      | '/', rest => [] :: rest
      | c, [] => [[c]]
      | c, part :: rest => (c :: part) :: rest

/-- Follow one part of a written path. -/
def follow (names : List String) (part : List Char) : List String :=
  if part = [] ∨ part = ['.'] then names
  else if part = ['.', '.'] then names.dropLast
  else names ++ [String.ofList part]

/-- The path that a written path denotes when it is read in a directory. A leading slash makes the
written path start at the root instead. -/
def resolve (directory : Path) (written : String) : Path :=
  let start := if written.toList.head? = some '/' then [] else directory.names
  ⟨(parts written.toList).foldl follow start⟩

/-- The written form of a path. -/
def toString (path : Path) : String :=
  "/" ++ "/".intercalate path.names

/-- A path is shown as it is written. -/
instance : ToString Path := ⟨toString⟩

/-- The directory that holds a path. The root holds itself. -/
def parent (path : Path) : Path :=
  ⟨path.names.dropLast⟩

/-- The directories above a path from the root down. -/
def ancestors (path : Path) : List Path :=
  (List.range path.names.length).map fun n => ⟨path.names.take n⟩

/-- The last name of a path, which is empty for the root. -/
def name (path : Path) : String :=
  path.names.getLastD ""

/-- The extension of a name: what stands from its last dot on. A dot in front of a name starts no
extension, and `..` has none. -/
def extensionOf (name : List Char) : List Char :=
  match name.reverse.dropWhile (· ≠ '.') with
  | [] => []
  | [_] => []
  | _ :: _ =>
      if name = ['.', '.'] then []
      else '.' :: (name.reverse.takeWhile (· ≠ '.')).reverse

/-- The extension of a path's last name. -/
def extension (path : Path) : String :=
  String.ofList (extensionOf path.name.toList)

/-- The extension of a written path, slashes at its end aside. -/
def writtenExtension (written : String) : String :=
  String.ofList (extensionOf (((parts written.toList).filter (· ≠ [])).getLastD []))

/-- The last name of a path without its extension. -/
def stem (path : Path) : String :=
  String.ofList (path.name.toList.take (path.name.length - path.extension.length))

/-- The path beside the given one with another extension. -/
def withExtension (path : Path) (extension : String) : Path :=
  ⟨path.parent.names ++ [path.stem ++ extension]⟩

/-- The text with forward slashes in place of backslashes. -/
def slashed (text : String) : String :=
  text.map fun c => if c = '\\' then '/' else c

/-- The names that lead from a directory down to a path, if the path lies in it. -/
def below? (directory path : Path) : Option (List String) :=
  if directory.names.isPrefixOf path.names then some (path.names.drop directory.names.length)
  else none

/-- The written form of a path seen from a directory: the names below the directory, or the whole
path if it is not strictly below. Names that start with two dots do not count as below. -/
def seenFrom (directory path : Path) : String :=
  match directory.below? path with
  | none => path.toString
  | some names =>
      let relative := "/".intercalate names
      if relative.isEmpty || ['.', '.'].isPrefixOf relative.toList then path.toString
      else relative

end Path

end LolMarkup
