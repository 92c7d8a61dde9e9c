import LolMarkup.Proofs.Reading.Laziness

/-!
# Reading by descent

A second reader, made of one rule for each construct. A rule looks at the token in front, and asks
for the next one when it takes it. What has no fixed length is read by a loop, and a section within
a paragraf by using the rule of sections within itself. Neither is known to end before something is
proved about the rules, so that both are guarded: an iteration of a loop that goes on without having
taken a token, or an inner section that starts where the outer one does, is `stuck`.
-/

namespace LolMarkup

namespace Reader

namespace Descent

/-- Why a rule ends before its time: it makes no progress, or there is an error in the text. -/
inductive Stop where
  | stuck
  | failed (error : ReadError)
deriving DecidableEq, Repr

/-- What rules work on: the token in front, the place after it, the declared name that waits for a
value, and the answers to all requests for a token so far. -/
structure Ahead where
  current : Token
  rest : Cursor
  pending : Option String
  requests : List (Except LexicalError Token)

/-- How much text is ahead, the token in front counting as one character. At the end of the input
there is none. -/
def Ahead.size (p : Ahead) : Nat :=
  if p.current.lexeme = .eof then 0 else p.rest.rest.length + 1

/-- The place after the first request for a token. -/
def Ahead.start (token : Token) (rest : Cursor) : Ahead :=
  ⟨token, rest, none, [.ok token]⟩

/-- A rule reads something, or ends before its time. -/
abbrev Rule (α : Type) := EStateM Stop Ahead α

variable {α β : Type}

/-! ## Tokens -/

/-- The lexeme in front. -/
def peek : Rule Lexeme :=
  fun p => .ok p.current.lexeme p

/-- Take the token in front and ask for the next one. -/
def advance : Rule Token :=
  fun p =>
    match p.rest.next with
    | .ok (token, rest) =>
        .ok p.current { p with current := token, rest, requests := p.requests ++ [.ok token] }
    | .error e =>
        .error (.failed (.lexical e)) { p with requests := p.requests ++ [.error e] }

/-- Refuse the token in front. -/
def refuse (expected : Expectation) : Rule α :=
  fun p => .error (.failed (.refused ⟨expected, p.current⟩)) p

/-- Take a token with the given lexeme. -/
def expect (lexeme : Lexeme) (expected : Expectation) : Rule Token := do
  if (← peek) = lexeme then advance else refuse expected

/-- Take the given hash word. -/
def expectWord (word : HashWord) : Rule Token :=
  expect (.hashWord word) (.word word)

/-- Take the given keyword. -/
def expectKeyword (word : Keyword) : Rule Token :=
  expect (.keyword word) (.keyword word)

/-! ## Repetition and recursion -/

/-- Repeat an iteration until it leaves the loop. It is given what the loop carries, and gives back
either that for the next iteration or what the loop results in. -/
def loop (iteration : α → Rule (α ⊕ β)) (carried : α) : Rule β :=
  fun p =>
    match iteration carried p with
    | .error e q => .error e q
    | .ok (.inr result) q => .ok result q
    | .ok (.inl next) q => if q.size < p.size then loop iteration next q else .error .stuck q
termination_by p => p.size

/-- A rule that may use itself further ahead. -/
def within (rule : Rule α → Rule α) : Rule α :=
  fun p => rule (fun q => if q.size < p.size then within rule q else .error .stuck q) p
termination_by p => p.size

/-- An iteration of skipping newlines. -/
def newlineIteration (_ : Unit) : Rule (Unit ⊕ Unit) := do
  if (← peek) = .newline then
    let _ ← advance
    return .inl ()
  else return .inr ()

/-- Skip newlines. -/
def skipNewlines : Rule Unit :=
  loop newlineIteration ()

variable (file : String)

/-! ## Runs of text -/

/-- Take a token that counts as text. -/
def text (content : String) : Rule Inline := do
  let token ← advance
  return textPiece file token content

/-- A reference. -/
def reference : Rule Inline := do
  let opening ← expectWord .lemmeSee
  match ← peek with
  | .name identifier =>
      let _ ← advance
      let closing ← expectWord .mkay
      return .reference (spanTo file opening.start closing) identifier
  | _ => refuse (.nameAfter .lemmeSee)

/-- An iteration of reading a run of text and references. -/
def inlineIteration (pieces : Array Inline) : Rule (Array Inline ⊕ Array Inline) := do
  match ← peek with
  | .hashWord .lemmeSee => return .inl (pieces.push (← reference file))
  | .text content | .name content => return .inl (pieces.push (← text file content))
  | _ => return .inr pieces

/-- An iteration of reading an address. Newlines in it are dropped. -/
def urlIteration (parts : Array String) : Rule (Array String ⊕ Array String) := do
  match ← peek with
  | .text content | .name content =>
      let _ ← advance
      return .inl (parts.push content)
  | .newline =>
      let _ ← advance
      return .inl parts
  | _ => return .inr parts

/-- An iteration of reading a title. -/
def titleIteration (parts : Array String) : Rule (Array String ⊕ Array String) := do
  match ← peek with
  | .hashWord .mkay => return .inr parts
  | .text content | .name content =>
      let _ ← advance
      return .inl (parts.push content)
  | .newline =>
      let _ ← advance
      return .inl parts
  | _ => refuse .titleText

/-- An iteration of reading the value of an assignment. -/
def valueIteration (parts : Array String) : Rule (Array String ⊕ Array String) := do
  match ← peek with
  | .text content | .name content =>
      let _ ← advance
      return .inl (parts.push content)
  | _ => return .inr parts

/-! ## Nodes -/

/-- A declaration, whose name waits for a value from now on. -/
def declaration : Rule Node := do
  let opening ← expectWord .iHaz
  match ← peek with
  | .name name =>
      let last ← advance
      modify ({ · with pending := some name })
      return .declaration (spanTo file opening.start last) name
  | _ => refuse (.nameAfter .iHaz)

/-- An assignment to the name that waits for a value. -/
def assignment : Rule Node := do
  let opening ← expectWord .itIz
  let parts ← loop valueIteration #[]
  let closing ← expectWord .mkay
  let name := (← get).pending
  modify ({ · with pending := none })
  return .assignment (spanTo file opening.start closing) name (joined "" parts)

/-- Embedded media, after its first word. -/
def media (opened : Position) (kind : Media) : Rule Node := do
  let _ ← advance
  let parts ← loop urlIteration #[]
  let closing ← expectWord .mkay
  return .media (spanTo file opened closing) kind (joined "" parts)

/-- An emphasis, after its first word. -/
def emphasis (opened : Position) (style : Emphasis) : Rule Node := do
  let _ ← advance
  let pieces ← loop (inlineIteration file) #[]
  let closing ← expectWord .mkay
  return .emphasis (spanTo file opened closing) style pieces.toList

/-- A styled node. -/
def styled : Rule Node := do
  let opening ← expectWord .gimmeh
  match ← peek with
  | .keyword .newline =>
      let last ← advance
      return .lineBreak (spanTo file opening.start last)
  | .keyword .soundz => media file opening.start .sound
  | .keyword .vidz => media file opening.start .video
  | .keyword .bold => emphasis file opening.start .bold
  | .keyword .italics => emphasis file opening.start .italics
  | _ => refuse .style

/-! ## Sections -/

/-- A title of a head. -/
def title : Rule Title := do
  let opening ← expectWord .gimmeh
  let _ ← expectKeyword .title
  let parts ← loop titleIteration #[]
  let closing ← expectWord .mkay
  return ⟨spanTo file opening.start closing, joined " " parts⟩

/-- An iteration of reading the titles of a head. -/
def headIteration (titles : Array Title) : Rule (Array Title ⊕ Array Title) := do
  skipNewlines
  if (← peek) = .hashWord .gimmeh then return .inl (titles.push (← title file))
  else return .inr titles

/-- A head section, after its first word. -/
def head (opened : Position) : Rule Node := do
  let _ ← expectKeyword .head
  let titles ← loop (headIteration file) #[]
  let closing ← expectWord .oic
  return .head (spanTo file opened closing) titles.toList

/-- An item of a list. -/
def item : Rule Item := do
  let opening ← expectWord .gimmeh
  let _ ← expectKeyword .item
  let pieces ← loop (inlineIteration file) #[]
  let closing ← expectWord .mkay
  return ⟨spanTo file opening.start closing, pieces.toList⟩

/-- An iteration of reading the items of a list. -/
def listIteration (items : Array Item) : Rule (Array Item ⊕ Array Item) := do
  skipNewlines
  if (← peek) = .hashWord .gimmeh then return .inl (items.push (← item file))
  else return .inr items

/-- A list section, after its first word. -/
def list (opened : Position) : Rule Node := do
  let _ ← expectKeyword .list
  let items ← loop (listIteration file) #[]
  let closing ← expectWord .oic
  return .list (spanTo file opened closing) items.toList

/-- A node of a paragraf, if one starts with the token in front. -/
def content? (inner : Rule Node) : Rule (Option Node) := do
  match ← peek with
  | .hashWord .iHaz => return some (← declaration file)
  | .hashWord .itIz => return some (← assignment file)
  | .hashWord .lemmeSee => return some (.inline (← reference file))
  | .hashWord .gimmeh => return some (← styled file)
  | .hashWord .maek => return some (← inner)
  | .text content | .name content => return some (.inline (← text file content))
  | _ => return none

/-- An iteration of reading the nodes of a paragraf. -/
def paragrafIteration (inner : Rule Node) (children : Array Node) :
    Rule (Array Node ⊕ Array Node) := do
  skipNewlines
  match ← content? file inner with
  | some node => return .inl (children.push node)
  | none => return .inr children

/-- A paragraf, after its first word. -/
def paragraf (inner : Rule Node) (opened : Position) : Rule Node := do
  let _ ← expectKeyword .paragraf
  let children ← loop (paragrafIteration file inner) #[]
  let closing ← expectWord .oic
  return .paragraf (spanTo file opened closing) children.toList

/-- A section whose paragrafs hold the given sections. -/
def sectionOver (inner : Rule Node) : Rule Node := do
  let opening ← expectWord .maek
  skipNewlines
  match ← peek with
  | .keyword .head => head file opening.start
  | .keyword .paragraf => paragraf file inner opening.start
  | .keyword .list => list file opening.start
  | _ => refuse .sectionKind

/-- A section. -/
def anySection : Rule Node :=
  within (sectionOver file)

/-! ## Documents -/

/-- An iteration of reading the nodes of a document. -/
def bodyIteration (children : Array Node) : Rule (Array Node ⊕ Array Node) := do
  skipNewlines
  match ← peek with
  | .eof => return .inr children
  | .hashWord .kthxbye => return .inr children
  | .hashWord .maek => return .inl (children.push (← anySection file))
  | .hashWord .iHaz =>
      let declared ← declaration file
      skipNewlines
      if (← peek) = .hashWord .itIz then
        return .inl ((children.push declared).push (← assignment file))
      else return .inl (children.push declared)
  | .hashWord .lemmeSee => return .inl (children.push (.inline (← reference file)))
  | .hashWord .gimmeh => return .inl (children.push (← styled file))
  | .text content | .name content => return .inl (children.push (.inline (← text file content)))
  | .keyword word => return .inl (children.push (.inline (← text file word.spelling)))
  | _ =>
      let _ ← advance
      return .inl children

/-- A document. -/
def program : Rule Document := do
  let opening ← expectWord .hai
  skipNewlines
  let children ← loop (bodyIteration file) #[]
  skipNewlines
  let closing ← expectWord .kthxbye
  skipNewlines
  if (← peek) = .eof then return ⟨spanTo file opening.start closing, children.toList⟩
  else refuse .endOfInput

/-- Read a source by descent: what is read, and the answers to all requests for a token. -/
def parse (source : Source) : Except Stop Document × List (Except LexicalError Token) :=
  match (Cursor.start source.text.toList).next with
  | .error e => (.error (.failed (.lexical e)), [.error e])
  | .ok (token, rest) =>
      match program source.path (.start token rest) with
      | .ok document p => (.ok document, p.requests)
      | .error stop p => (.error stop, p.requests)

end Descent

end Reader

end LolMarkup
