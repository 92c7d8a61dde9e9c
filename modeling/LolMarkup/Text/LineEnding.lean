/-!
# Line endings of written text

Artifacts are composed with line feeds. A line ending says how a line is ended in the written form.
-/

namespace LolMarkup.Text

/-- How the lines of a written text end. -/
inductive LineEnding where
  | lf
  | crlf
deriving DecidableEq, Repr

namespace LineEnding

/-- The characters that end a line. -/
def mark : LineEnding → String
  | lf => "\n"
  | crlf => "\r\n"

/-- Put a carriage return before every line feed that does not already follow one. -/
def addReturns : List Char → List Char
  | [] => []
  | '\r' :: '\n' :: rest => '\r' :: '\n' :: addReturns rest
  | '\n' :: rest => '\r' :: '\n' :: addReturns rest
  | c :: rest => c :: addReturns rest

/-- The text with its line feeds written as this line ending. A text that is to end its lines by
line feeds stays as it is. -/
def apply (ending : LineEnding) (s : String) : String :=
  match ending with
  | lf => s
  | crlf => String.ofList (addReturns s.toList)

end LineEnding

end LolMarkup.Text
