import LolMarkup.Text.Blank
import LolMarkup.Text.LineEnding
import LolMarkup.Text.Quoted
import LolMarkup.Token.Basic

/-!
# Token listings

A listing shows tokens one per row under a header that counts them. A row holds the place, the class
and the value of a token in columns. Free text is quoted so that what surrounds it stays visible.
-/

namespace LolMarkup

/-- The value of a lexeme in a listing. -/
def Lexeme.listed : Lexeme → String
  | hashWord word => word.spelling
  | keyword word => word.spelling
  | text content => Text.quoted content
  | name identifier => identifier
  | newline => ""
  | eof => ""

namespace Listing

/-- A text with spaces after it up to the given width. -/
def column (width : Nat) (s : String) : String :=
  s ++ String.ofList (List.replicate (width - s.length) ' ')

/-- The row of a token, without blank characters at its end. -/
def row (token : Token) : String :=
  let place := s!"{token.start.line}:{token.start.column}"
  let cells := column 8 place ++ column 10 token.lexeme.kindName ++ token.lexeme.listed
  String.ofList (Text.trimEnd cells.toList)

/-- The header of a listing of the given number of tokens. -/
def header (count : Nat) : String :=
  s!"; token listing ({count} tokens)"

/-- The rows of a listing, its header first. -/
def rows (tokens : List Token) : List String :=
  header tokens.length :: tokens.map row

/-- The text of a listing, each row ended by the given line ending. -/
def text (ending : Text.LineEnding) (tokens : List Token) : String :=
  String.join ((rows tokens).map (· ++ ending.mark))

end Listing

end LolMarkup
