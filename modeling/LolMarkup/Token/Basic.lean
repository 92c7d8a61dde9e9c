import LolMarkup.Source
import LolMarkup.Token.Word

/-!
# Tokens

A lexeme is what a stretch of text means to the grammar, and a token is a lexeme with the place
where it stands.
-/

namespace LolMarkup

/-- The meaning of a stretch of text: a reserved word, an identifier, free text, the end of a line
or the end of the input. -/
inductive Lexeme where
  | hashWord (word : HashWord)
  | keyword (word : Keyword)
  | text (content : String)
  | name (identifier : String)
  | newline
  | eof
deriving DecidableEq, Repr

namespace Lexeme

/-- The name of a lexeme's class. -/
def kindName : Lexeme → String
  | hashWord _ => "HashWord"
  | keyword _ => "Keyword"
  | text _ => "Text"
  | name _ => "VarDef"
  | newline => "Newline"
  | eof => "Eof"

/-- The text that a lexeme carries. Ends of lines and of the input carry none. -/
def content? : Lexeme → Option String
  | hashWord word => some word.spelling
  | keyword word => some word.spelling
  | text content => some content
  | name identifier => some identifier
  | newline => none
  | eof => none

/-- How messages name a lexeme. -/
def describe : Lexeme → String
  | hashWord word => s!"hashtag word '{word.spelling}'"
  | keyword word => s!"keyword '{word.spelling}'"
  | text content => s!"text \"{content}\""
  | name identifier => s!"identifier '{identifier}'"
  | newline => "newline"
  | eof => "end of input"

end Lexeme

/-- A lexeme between two positions of a text. -/
structure Token where
  lexeme : Lexeme
  start : Position
  stop : Position
deriving DecidableEq, Repr

end LolMarkup
