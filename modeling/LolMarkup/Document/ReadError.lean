import LolMarkup.Token.Scan

/-!
# Errors of reading a document

A source has no document if it cannot be scanned far enough, or if a token is refused. A refusal is
described by what was expected in the place of the token.
-/

namespace LolMarkup

/-- What the reader was waiting for when it refused a token. -/
inductive Expectation where
  | word (word : HashWord)
  | keyword (word : Keyword)
  | sectionKind
  | style
  | nameAfter (word : HashWord)
  | titleText
  | endOfInput
deriving DecidableEq, Repr

namespace Expectation

/-- The code under which a refusal is diagnosed. -/
def code : Expectation → Code
  | endOfInput => .trailingTokens
  | _ => .malformed

/-- What the user is told when this was expected and the given lexeme was found. -/
def message : Expectation → Lexeme → String
  | word wanted, found => s!"Expected '{wanted.spelling}' but found {found.describe}"
  | keyword wanted, found => s!"Expected keyword '{wanted.spelling}' but found {found.describe}"
  | sectionKind, .keyword kind => s!"Unknown section type '{kind.spelling}'"
  | sectionKind, found => s!"Expected section type after #MAEK but found {found.describe}"
  | style, .keyword kind => s!"Unknown style '{kind.spelling}'"
  | style, found => s!"Expected style keyword after #GIMMEH but found {found.describe}"
  | nameAfter opener, found =>
      s!"Expected variable name after {opener.spelling} but found {found.describe}"
  | titleText, found => s!"Unexpected token in TITLE: {found.describe}"
  | endOfInput, _ => "Unexpected tokens after #KTHXBYE"

end Expectation

/-- A refused token and what was expected in its place. -/
structure SyntaxError where
  expected : Expectation
  found : Token
deriving DecidableEq, Repr

/-- The diagnostic of a syntax error in the given file. -/
def SyntaxError.diagnostic (file : String) (e : SyntaxError) : Diagnostic :=
  ⟨e.expected.code, .error, e.expected.message e.found.lexeme, file,
    some e.found.start.line, some e.found.start.column⟩

/-- Why a source has no document: it cannot be scanned far enough, or a token is refused. -/
inductive ReadError where
  | lexical (error : LexicalError)
  | refused (error : SyntaxError)
deriving DecidableEq, Repr

/-- The diagnostic of a read error in the given file. -/
def ReadError.diagnostic (file : String) : ReadError → Diagnostic
  | lexical error => error.diagnostic file
  | refused error => error.diagnostic file

end LolMarkup
