import LolMarkup.Artifact
import LolMarkup.Document.Reader
import LolMarkup.Document.Rendering
import LolMarkup.FileSystem
import LolMarkup.Text.Utf8

/-!
# Compiling sources

A source is compiled to a page and, on request, to a token listing and an outline. Lexical and
syntactic errors stop at the first one, problems with names are all reported, and with any error
there are no artifacts.
-/

namespace LolMarkup

/-- What is asked of a compilation. -/
structure Options where
  /-- Stop after the tokens. -/
  lexOnly : Bool := false
  /-- Write a token listing. -/
  emitTokens : Bool := false
  /-- Write an outline. -/
  emitOutline : Bool := false
  /-- How the lines of the page and of the listing end. -/
  lineEnding : Text.LineEnding := .lf
deriving DecidableEq, Repr

/-- The result of a compilation: what the user is told, the drafts in the order in which they were
written out, and the artifacts in the order in which they are handed over. Drafts are kept also
when an error shows up after they were written. -/
structure Compilation where
  diagnostics : List Diagnostic
  drafts : List Draft
  artifacts : List Artifact
deriving Repr

namespace Compilation

/-- A compilation that ends with the given diagnostics after some drafts. -/
def failed (diagnostics : List Diagnostic) (drafts : List Draft) : Compilation :=
  ⟨diagnostics, drafts, []⟩

end Compilation

namespace Source

/-- The draft of the token listing, if one is asked for. The tokens are checked also for a
compilation that stops after them. -/
def listing (source : Source) (options : Options) : Except Diagnostic (List Draft) :=
  if options.lexOnly || options.emitTokens then
    source.tokenize.map fun tokens =>
      if options.emitTokens then [.tokens tokens options.lineEnding] else []
  else .ok []

/-- The directory of a source, from which outlines see its file. -/
def directory (here : Path) (source : Source) : Path :=
  (here.resolve source.path).parent

/-- The draft of the outline, if one is asked for. -/
def outline (here : Path) (source : Source) (options : Options) (document : Document) :
    List Draft :=
  if options.emitOutline then [.outline document (some (source.directory here).toString)] else []

/-- Compile a source. Relative paths start at `here`. -/
def compile (here : Path) (source : Source) (options : Options) : Compilation :=
  match source.listing options with
  | .error e => .failed [e] []
  | .ok listing =>
      if options.lexOnly then ⟨[], listing, listing.map (Draft.write here)⟩
      else
        match source.document with
        | .error e => .failed [e] listing
        | .ok document =>
            if Diagnostic.anyError document.diagnostics then
              .failed document.diagnostics listing
            else
              let page := .html document.render.html options.lineEnding
              let outline := source.outline here options document
              ⟨document.diagnostics, listing ++ page :: outline,
                (page :: listing ++ outline).map (Draft.write here)⟩

end Source

/-- Why an entry file is not compiled at all. -/
inductive EntryError where
  | wrongExtension
  | unreadable (error : SystemError)
deriving DecidableEq, Repr

namespace EntryError

/-- The extension of entry files. -/
def entryExtension : String := ".lol"

/-- The code under which an entry error is diagnosed. -/
def code : EntryError → Code
  | wrongExtension => .wrongExtension
  | unreadable _ => .unreadableEntry

/-- What the user is told about an entry error. -/
def message : EntryError → String
  | wrongExtension => s!"Input file must have a {entryExtension} extension"
  | unreadable error => s!"Failed to read entry file: Error: {error.message}"

/-- The diagnostic of an entry error, which concerns the file as a whole. -/
def diagnostic (path : Path) (e : EntryError) : Diagnostic :=
  ⟨e.code, .error, e.message, path.toString, none, none⟩

end EntryError

namespace FileSystem

/-- The source at a path. -/
def entrySource (files : FileSystem) (path : Path) : Except EntryError Source :=
  if path.extension ≠ EntryError.entryExtension then .error .wrongExtension
  else
    match files.read path with
    | .error e => .error (.unreadable e)
    | .ok bytes => .ok ⟨path.toString, Text.Utf8.decode bytes⟩

/-- Compile the entry file at a written path. -/
def compile (files : FileSystem) (here : Path) (entry : String) (options : Options) :
    Compilation :=
  match files.entrySource (here.resolve entry) with
  | .error e => .failed [e.diagnostic (here.resolve entry)] []
  | .ok source => source.compile here options

end FileSystem

end LolMarkup
