import LolMarkup.CommandLine.Request
import LolMarkup.Compilation

/-!
# Running the command line

A run of the command line takes the arguments and the file system it finds, and ends with an exit
code, with what it prints, and with the file system it leaves. It exits with 0 when all went well,
with 1 when the document has errors, and with 2 when the arguments are wrong or the artifacts cannot
be written.
-/

namespace LolMarkup.CommandLine

/-- The text that explains the command line. -/
def usage : String :=
  "lolmd [options] <entry.lol>\n" ++
  "\n" ++
  "Options:\n" ++
  "  -o, --output <file>   HTML output path (must end in .html)\n" ++
  "      --lex-only        Tokenize only; print \"valid\" on success\n" ++
  "      --tokens          Also write <base>.tokens.txt\n" ++
  "      --ast             Also write <base>.ast.json\n" ++
  "  -V, --version         Print version\n" ++
  "  -h, --help            Show help\n" ++
  "\n" ++
  "Notes:\n" ++
  "  - Sidecar artifacts are written next to the HTML output using its base name.\n"

/-- The version of the command line. -/
def version : String := "0.1.0"

/-- How a run ends. -/
structure Outcome where
  code : Nat
  stdout : String
  stderr : String
  files : FileSystem
deriving Repr

namespace Request

/-- The options of the compilation that is asked for. -/
def options (request : Request) : Options :=
  { lexOnly := request.lexOnly
    emitTokens := request.emitTokens
    emitOutline := request.emitOutline }

/-- The path that the artifacts are named after: the output, or else the entry. -/
def primary (here : Path) (request : Request) : Path :=
  here.resolve (request.output.getD request.entry)

end Request

/-- The complaint about a run that could not be carried out. -/
def complaint (message : String) : String :=
  s!"lolmd: {message}\n{usage}\n"

/-- The diagnostics as they are printed, one per line. -/
def report (diagnostics : List Diagnostic) : String :=
  String.join ((Diagnostic.sorted diagnostics).map (·.format ++ "\n"))

/-- Write artifacts beside the primary path, whose directory is made if it is missing. -/
def publish (files : FileSystem) (primary : Path) (artifacts : List Artifact) :
    FileSystem × Option SystemError :=
  match files.makeDirectories primary.parent with
  | .error e => (files, some e)
  | .ok made =>
      made.writeAll (artifacts.map fun artifact =>
        (primary.withExtension artifact.extension, Text.Utf8.encode artifact.fileText))

/-- What is printed after all artifacts are written. -/
def success (primary : Path) (lexOnly : Bool) : String :=
  if lexOnly then "valid\n" else (primary.withExtension ".html").toString ++ "\n"

/-- Carry out a request. -/
def Request.run (here : Path) (files : FileSystem) (request : Request) : Outcome :=
  let result := files.compile here request.entry request.options
  let told := report result.diagnostics
  if Diagnostic.anyError result.diagnostics then ⟨1, "", told, files⟩
  else
    let primary := request.primary here
    match publish files primary result.artifacts with
    | (written, none) => ⟨0, success primary request.lexOnly, told, written⟩
    | (written, some e) => ⟨2, "", told ++ complaint e.message, written⟩

/-- Run the command line in the directory `here`. -/
def run (here : Path) (files : FileSystem) (arguments : List String) : Outcome :=
  match Command.ofArguments arguments with
  | .error misuse => ⟨2, "", complaint misuse.message, files⟩
  | .ok .help => ⟨0, usage, "", files⟩
  | .ok .version => ⟨0, version ++ "\n", "", files⟩
  | .ok (.compile request) => request.run here files

end LolMarkup.CommandLine
