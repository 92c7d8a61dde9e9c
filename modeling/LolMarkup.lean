import LolMarkup.Artifact
import LolMarkup.CommandLine.Request
import LolMarkup.CommandLine.Run
import LolMarkup.Compilation
import LolMarkup.Diagnostic
import LolMarkup.Document.Basic
import LolMarkup.Document.Outline
import LolMarkup.Document.ReadError
import LolMarkup.Document.Reader
import LolMarkup.Document.Reader.State
import LolMarkup.Document.Reader.Step
import LolMarkup.Document.Rendering
import LolMarkup.FileSystem
import LolMarkup.Html
import LolMarkup.Json
import LolMarkup.Main
import LolMarkup.Path
import LolMarkup.Proofs.Lexing.Shape
import LolMarkup.Proofs.Lexing.Tiling
import LolMarkup.Proofs.Lexing.Resumption
import LolMarkup.Scopes
import LolMarkup.Source
import LolMarkup.Text.Blank
import LolMarkup.Text.LineEnding
import LolMarkup.Text.Quoted
import LolMarkup.Text.Units
import LolMarkup.Text.Utf8
import LolMarkup.Token.Basic
import LolMarkup.Token.Listing
import LolMarkup.Token.Scan
import LolMarkup.Token.Segment
import LolMarkup.Token.Word
import LolMarkup.Proofs.Reading.Laziness
import LolMarkup.Proofs.Reading.Control
import LolMarkup.Proofs.Grammar.Basic
import LolMarkup.Proofs.Grammar.Soundness
import LolMarkup.Proofs.Grammar.Completeness
import LolMarkup.Proofs.Grammar.Exactness
import LolMarkup.Proofs.Scoping.Order
import LolMarkup.Proofs.Scoping.Bindings
import LolMarkup.Proofs.Scoping.Agreement
import LolMarkup.Proofs.Lexing.Writing
import LolMarkup.Proofs.Compiling.Contract
import LolMarkup.Proofs.Reading.Refusal
import LolMarkup.Proofs.Image.WellMade
import LolMarkup.Proofs.Image.Soundness
import LolMarkup.Proofs.Image.Printing
import LolMarkup.Proofs.Image.Exactness
import LolMarkup.Proofs.Scoping.Levels
import LolMarkup.Proofs.Scoping.Visits
import LolMarkup.Proofs.Scoping.Landing
import LolMarkup.Proofs.Scoping.Lateness
import LolMarkup.Proofs.Lexing.Blanks
import LolMarkup.Proofs.Layout.Content
import LolMarkup.Proofs.Layout.Insertion
import LolMarkup.Proofs.Layout.LineBreaks
import LolMarkup.Proofs.Files.Naming
import LolMarkup.Proofs.Files.Effects
import LolMarkup.Proofs.CommandLine.Frame
import LolMarkup.Proofs.Reading.Parts
import LolMarkup.Proofs.Reading.Moves
import LolMarkup.Proofs.Lexing.Positions
import LolMarkup.Proofs.Reading.Placement
import LolMarkup.Proofs.Reading.Conservation
import LolMarkup.Proofs.CommandLine.SourceOrder
import LolMarkup.Proofs.Layout.LineFeeds
import LolMarkup.Proofs.Compiling.LineEndings
import LolMarkup.Proofs.Compiling.Sidecars
import LolMarkup.Proofs.Files.Rewriting
import LolMarkup.Proofs.Files.Rooted
import LolMarkup.Proofs.CommandLine.Repetition
import LolMarkup.Proofs.CommandLine.Commutation
import LolMarkup.Proofs.Lexing.LineTable
import LolMarkup.Proofs.Layout.Lines
import LolMarkup.Proofs.Lexing.HashWalk
import LolMarkup.Proofs.Reading.Context
import LolMarkup.Proofs.Reading.Changes
import LolMarkup.Proofs.Reading.Locality
import LolMarkup.Proofs.Layout.Excerpts
import LolMarkup.Proofs.Scoping.Resolution
import LolMarkup.Proofs.Layout.Literals
import LolMarkup.Proofs.Scoping.Brackets
import LolMarkup.Proofs.Scoping.Slots
import LolMarkup.Proofs.Scoping.Removal
import LolMarkup.Proofs.Scoping.Renaming
import LolMarkup.Proofs.Outlines.UniqueReading
import LolMarkup.Proofs.Outlines.Losslessness
import LolMarkup.Proofs.Listings.Losslessness
import LolMarkup.Proofs.Files.Resolution
import LolMarkup.Proofs.Outlines.RecordedFile
import LolMarkup.Proofs.CommandLine.Arguments
import LolMarkup.Proofs.CommandLine.OutputPath
import LolMarkup.Proofs.CommandLine.LexChecks
import LolMarkup.Proofs.CommandLine.ArgumentOrder
import LolMarkup.Proofs.Lexing.UpperCase
import LolMarkup.Proofs.Layout.LetterCase
import LolMarkup.Proofs.Reading.Progress
