import LolMarkup.Document.Reader.Step

/-!
# Reading a document

The tokens of a source are read from left to right until the input ends, a token is refused or the
scan ends in a fault, whichever comes first.
-/

namespace LolMarkup

namespace Reader

/-- The document that is complete when the input ends in the given state. -/
def State.finish (state : State) (position : Position) : Except SyntaxError Document :=
  match state with
  | after document => .ok document
  | state => .error ⟨state.expectation, .atEnd position⟩

/-- Read the tokens of a scan from the given state on. A fault at the end of the scan is
reported only if no token before it is refused. -/
def State.read (file : String) (state : State) (ending : Ending) :
    List Token → Except ReadError Document
  | [] =>
      match ending with
      | .endOfInput position => (state.finish position).mapError .refused
      | .fault error => .error (.lexical error)
  | token :: rest =>
      match state.next? file token with
      | some next => next.read file ending rest
      | none => .error (.refused ⟨state.expectation, token⟩)

end Reader

/-- The document of a source, or the reason why it has none. -/
def Source.read (source : Source) : Except ReadError Document :=
  Reader.State.before.read source.path source.scan.ending source.scan.tokens

/-- The document of a source, or the diagnostic of its first error. -/
def Source.document (source : Source) : Except Diagnostic Document :=
  source.read.mapError (·.diagnostic source.path)

end LolMarkup
