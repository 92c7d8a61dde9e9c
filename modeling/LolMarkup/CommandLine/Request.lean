import LolMarkup.Path

/-!
# Command line arguments

Arguments are read from left to right into a command. The first one that asks for help or for the
version decides, and so does the first one that is wrong. What concerns the arguments as a whole is
checked after the last of them.
-/

namespace LolMarkup.CommandLine

/-- A request to compile an entry file. -/
structure Request where
  entry : String
  output : Option String
  lexOnly : Bool
  emitTokens : Bool
  emitOutline : Bool
deriving DecidableEq, Repr

/-- What the arguments ask for. -/
inductive Command where
  | help
  | version
  | compile (request : Request)
deriving DecidableEq, Repr

/-- What can be wrong with the arguments. -/
inductive Misuse where
  | missingValue (option : String)
  | unknownOption (option : String)
  | entryCount
  | outputExtension
  | outlineWithoutParsing
deriving DecidableEq, Repr

/-- What the user is told about a misuse. -/
def Misuse.message : Misuse → String
  | missingValue option => s!"{option} expects a value"
  | unknownOption option => s!"Unknown option \"{option}\""
  | entryCount => "Expected exactly one <entry.lol> argument"
  | outputExtension => "--output must end with \".html\""
  | outlineWithoutParsing => "--ast cannot be combined with --lex-only"

/-- The meaning of one argument. An output option may have its value in the same argument or in the
next one. -/
inductive Argument where
  | help
  | version
  | output (value : String)
  | outputNext (option : String)
  | lexOnly
  | tokens
  | outline
  | unknown (option : String)
  | entry (written : String)
deriving DecidableEq, Repr

namespace Argument

/-- The start of an output option that has its value in the same argument. -/
def outputEquals : List Char := "--output=".toList

/-- The meaning of an argument. -/
def ofString (s : String) : Argument :=
  if s = "-h" ∨ s = "--help" then help
  else if s = "-V" ∨ s = "--version" then version
  else if s = "-o" ∨ s = "--output" then outputNext s
  else if outputEquals.isPrefixOf s.toList then
    output (String.ofList (s.toList.drop outputEquals.length))
  else if s = "--lex-only" then lexOnly
  else if s = "--tokens" then tokens
  else if s = "--ast" then outline
  else if s.toList.head? = some '-' then unknown s
  else entry s

end Argument

/-- What the arguments read so far have asked for. -/
structure Gathered where
  entry : Option String := none
  output : Option String := none
  lexOnly : Bool := false
  emitTokens : Bool := false
  emitOutline : Bool := false
deriving DecidableEq, Repr

namespace Gathered

/-- Whether a written path may be the output. -/
def isPage (written : String) : Bool :=
  (Path.writtenExtension written).map Char.toLower = ".html"

/-- Take the value of an output option. A later value replaces an earlier one. -/
def addOutput (gathered : Gathered) (option value : String) : Except Misuse Gathered :=
  if value.isEmpty then .error (.missingValue option)
  else .ok { gathered with output := some value }

/-- Take an entry. There is only one. -/
def addEntry (gathered : Gathered) (written : String) : Except Misuse Gathered :=
  if gathered.entry.isSome then .error .entryCount
  else .ok { gathered with entry := some written }

/-- The request that was gathered, if it holds together. -/
def finish (gathered : Gathered) : Except Misuse Request :=
  match gathered.entry.filter (!·.isEmpty) with
  | none => .error .entryCount
  | some entry =>
      if !gathered.output.all isPage then .error .outputExtension
      else if gathered.lexOnly && gathered.emitOutline then .error .outlineWithoutParsing
      else
        .ok
          { entry
            output := gathered.output
            lexOnly := gathered.lexOnly
            emitTokens := gathered.emitTokens
            emitOutline := gathered.emitOutline }

/-- Read the remaining arguments. -/
def read (gathered : Gathered) : List String → Except Misuse Command
  | [] => gathered.finish.map .compile
  | argument :: rest =>
      match Argument.ofString argument with
      | .help => .ok .help
      | .version => .ok .version
      | .output value => do (← gathered.addOutput "--output" value).read rest
      | .outputNext option =>
          match rest with
          | [] => .error (.missingValue option)
          | value :: rest => do (← gathered.addOutput option value).read rest
      | .lexOnly => { gathered with lexOnly := true }.read rest
      | .tokens => { gathered with emitTokens := true }.read rest
      | .outline => { gathered with emitOutline := true }.read rest
      | .unknown option => .error (.unknownOption option)
      | .entry written => do (← gathered.addEntry written).read rest

end Gathered

/-- The command that the arguments ask for. -/
def Command.ofArguments (arguments : List String) : Except Misuse Command :=
  ({} : Gathered).read arguments

end LolMarkup.CommandLine
