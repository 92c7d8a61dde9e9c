import LolMarkup.Token.Segment

/-!
# Scanning a source

A scan is the list of a source's tokens together with the way it ends: at the end of the
input, or at a fault. Positions follow from the lengths of the segments, which lie end to end.
-/

namespace LolMarkup

/-- A fault with the position of the `#` where it arises. -/
structure LexicalError where
  fault : Fault
  position : Position
deriving DecidableEq, Repr

/-- The diagnostic of a lexical error in the given file. -/
def LexicalError.diagnostic (file : String) (e : LexicalError) : Diagnostic :=
  ⟨e.fault.code, .error, e.fault.message, file, some e.position.line, some e.position.column⟩

/-- How a scan ends. -/
inductive Ending where
  | endOfInput (position : Position)
  | fault (error : LexicalError)
deriving DecidableEq, Repr

/-- The tokens of a source before its end, and the way they end. -/
structure Scan where
  tokens : List Token
  ending : Ending
deriving DecidableEq, Repr

namespace Scan

/-- The tokens of segments that lie end to end from the given position on. -/
def placed (position : Position) : List Segment → List Token
  | [] => []
  | segment :: rest =>
      let next := position.after segment.chars
      match segment.lexeme with
      | some lexeme => ⟨lexeme, position, next⟩ :: placed next rest
      | none => placed next rest

/-- The position after segments that lie end to end from the given position on. -/
def endPosition (position : Position) (segments : List Segment) : Position :=
  segments.foldl (fun p segment => p.after segment.chars) position

/-- The scan of a segmentation that starts at the given position. -/
def ofSegmentation (position : Position) (cut : Segmentation) : Scan :=
  let last := endPosition position cut.segments
  { tokens := placed position cut.segments
    ending := match cut.fault with
      | none => .endOfInput last
      | some fault => .fault ⟨fault, last⟩ }

/-- Scan the characters of a text. -/
def ofChars (cs : List Char) : Scan :=
  ofSegmentation .origin (Segmentation.ofChars cs)

end Scan

/-- The token that stands at the end of the input. -/
def Token.atEnd (position : Position) : Token :=
  ⟨.eof, position, position⟩

namespace Ending

/-- The first `count` outcomes of asking for a token at the end: always the end of the input, or the
lexical error once. -/
def pull : Ending → Nat → List (Except LexicalError Token)
  | endOfInput position, count => List.replicate count (.ok (.atEnd position))
  | fault _, 0 => []
  | fault error, _ + 1 => [.error error]

end Ending

namespace Scan

/-- All tokens of the source with the end of the input as the last one, unless there is a fault. -/
def allTokens (scan : Scan) : Except LexicalError (List Token) :=
  match scan.ending with
  | .endOfInput position => .ok (scan.tokens ++ [.atEnd position])
  | .fault error => .error error

/-- The first `count` outcomes of asking for one token after another. Nothing follows an error. -/
def pull (scan : Scan) (count : Nat) : List (Except LexicalError Token) :=
  (scan.tokens.take count).map .ok ++ scan.ending.pull (count - scan.tokens.length)

end Scan

/-- Scan a source. -/
def Source.scan (source : Source) : Scan :=
  Scan.ofChars source.text.toList

/-- All tokens of a source, or the diagnostic of its lexical error. -/
def Source.tokenize (source : Source) : Except Diagnostic (List Token) :=
  source.scan.allTokens.mapError (·.diagnostic source.path)

end LolMarkup
