import LolMarkup.Document.Outline
import LolMarkup.Path
import LolMarkup.Token.Listing

/-!
# Artifacts

An artifact is a finished output: a page, a token listing or the outline of a document. A draft
holds what an artifact is written from.
-/

namespace LolMarkup

/-- A finished output. -/
inductive Artifact where
  | html (text : String)
  | tokens (text : String)
  | outline (record : Json)
deriving Repr

namespace Artifact

/-- The extension of the file that holds an artifact. -/
def extension : Artifact → String
  | html _ => ".html"
  | tokens _ => ".tokens.txt"
  | outline _ => ".ast.json"

/-- The text of the file that holds an artifact. -/
def fileText : Artifact → String
  | html text => text
  | tokens text => text
  | outline record => record.pretty 0 ++ "\n"

end Artifact

/-- What an artifact is written from. An outline may be given the directory from which its file is
seen. -/
inductive Draft where
  | html (page : String) (ending : Text.LineEnding)
  | tokens (tokens : List Token) (ending : Text.LineEnding)
  | outline (document : Document) (root : Option String)
deriving Repr

namespace Draft

/-- The file that an outline records, always with forward slashes: as it is given, or as it is seen
from a root directory. An empty root counts as none. Relative paths start at `here`. -/
def recordedFile (here : Path) (file : String) (root : Option String) : String :=
  match root.filter (!·.isEmpty) with
  | none => Path.slashed file
  | some root => Path.slashed ((here.resolve root).seenFrom (here.resolve file))

/-- Write an artifact. -/
def write (here : Path) : Draft → Artifact
  | html page ending => .html (ending.apply page)
  | tokens listed ending => .tokens (Listing.text ending listed)
  | outline document root =>
      .outline (document.record (recordedFile here document.span.file root))

end Draft

end LolMarkup
