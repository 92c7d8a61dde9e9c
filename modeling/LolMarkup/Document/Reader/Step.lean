import LolMarkup.Document.Reader.State
import LolMarkup.Text.Blank

/-!
# One step of the reader

A token either leads to a next state or is refused. There is one function for each construct that
takes more than one kind of token.
-/

namespace LolMarkup

namespace Reader

/-- The text of parts that follow one another, with no blank characters at its ends. -/
def joined (separator : String) (parts : Array String) : String :=
  Text.trimmed (separator.intercalate parts.toList)

namespace Inside

/-- The state with another focus. -/
def focusing (state : Inside) (focus : Focus) : Inside :=
  { state with focus }

/-- The state after a node of the innermost block. -/
def add (state : Inside) (node : Node) : Inside :=
  { state with
    block := { state.block with children := state.block.children.push node }
    focus := .content false }

end Inside

/-- A run with one more piece. -/
def OpenRun.push (run : OpenRun) (piece : Inline) : OpenRun :=
  { run with pieces := run.pieces.push piece }

/-- The span of a construct opened at a position and ended by a token. -/
def spanTo (file : String) (opened : Position) (last : Token) : Span :=
  ⟨file, opened, last.stop⟩

/-- The text piece made of a token. -/
def textPiece (file : String) (token : Token) (content : String) : Inline :=
  .text ⟨file, token.start, token.stop⟩ content

/-- The state after a token that starts a construct, if it does start one that both the document and
paragrafs may hold. -/
def opening? (state : Inside) (token : Token) : Option Inside :=
  match token.lexeme with
  | .hashWord .maek => some (state.focusing (.sectionKind token.start))
  | .hashWord .iHaz => some (state.focusing (.declaration token.start))
  | .hashWord .lemmeSee => some (state.focusing (.referenceName none token.start))
  | .hashWord .gimmeh => some (state.focusing (.style token.start))
  | _ => none

/-- The state after a token between two nodes of the document. Words that start nothing there are
dropped, and keywords count as text. -/
def topLevel? (file : String) (state : Inside) (declared : Bool) (token : Token) : Option State :=
  match token.lexeme with
  | .newline => some (.inside state)
  | .eof => none
  | .hashWord .kthxbye =>
      some (.after ⟨spanTo file state.block.opened token, state.block.children.toList⟩)
  | .hashWord .itIz =>
      some (.inside (state.focusing
        (if declared then .assignment token.start #[] else .content false)))
  | .text content | .name content =>
      some (.inside (state.add (.inline (textPiece file token content))))
  | .keyword word => some (.inside (state.add (.inline (textPiece file token word.spelling))))
  | .hashWord _ =>
      some (.inside ((opening? state token).getD (state.focusing (.content false))))

/-- The state after a token between two nodes of a paragraf with the given block around it. -/
def nested? (file : String) (state : Inside) (around : Block) (outer : List Block)
    (token : Token) : Option State :=
  match token.lexeme with
  | .newline => some (.inside state)
  | .hashWord .oic =>
      let node := .paragraf (spanTo file state.block.opened token) state.block.children.toList
      some (.inside (Inside.add { state with block := around, outer } node))
  | .hashWord .itIz => some (.inside (state.focusing (.assignment token.start #[])))
  | .text content | .name content =>
      some (.inside (state.add (.inline (textPiece file token content))))
  | _ => (opening? state token).map .inside

/-- The state after the kind of a section. -/
def section? (state : Inside) (opened : Position) (token : Token) : Option Inside :=
  match token.lexeme with
  | .newline => some state
  | .keyword .head => some (state.focusing (.head ⟨opened, #[]⟩))
  | .keyword .paragraf =>
      some { state with
        block := ⟨opened, #[]⟩
        outer := state.block :: state.outer
        focus := .content false }
  | .keyword .list => some (state.focusing (.list ⟨opened, #[]⟩))
  | _ => none

/-- The state after a token between two titles of a head. -/
def head? (file : String) (state : Inside) (head : OpenHead) (token : Token) : Option Inside :=
  match token.lexeme with
  | .newline => some state
  | .hashWord .gimmeh => some (state.focusing (.titleKeyword head token.start))
  | .hashWord .oic => some (state.add (.head (spanTo file head.opened token) head.titles.toList))
  | _ => none

/-- The state after a token within a title. -/
def title? (file : String) (state : Inside) (head : OpenHead) (opened : Position)
    (parts : Array String) (token : Token) : Option Inside :=
  match token.lexeme with
  | .newline => some state
  | .text content | .name content =>
      some (state.focusing (.title head opened (parts.push content)))
  | .hashWord .mkay =>
      let title := ⟨spanTo file opened token, joined " " parts⟩
      some (state.focusing (.head { head with titles := head.titles.push title }))
  | _ => none

/-- The state after a token between two items of a list. -/
def list? (file : String) (state : Inside) (list : OpenList) (token : Token) : Option Inside :=
  match token.lexeme with
  | .newline => some state
  | .hashWord .gimmeh => some (state.focusing (.itemKeyword list token.start))
  | .hashWord .oic => some (state.add (.list (spanTo file list.opened token) list.items.toList))
  | _ => none

/-- The state after a run that is closed by the given token. -/
def closeRun (file : String) (state : Inside) (run : OpenRun) (token : Token) : Inside :=
  match run.host with
  | .emphasis opened style =>
      state.add (.emphasis (spanTo file opened token) style run.pieces.toList)
  | .item list opened =>
      let item := ⟨spanTo file opened token, run.pieces.toList⟩
      state.focusing (.list { list with items := list.items.push item })

/-- The state after a token within a run. -/
def run? (file : String) (state : Inside) (run : OpenRun) (token : Token) : Option Inside :=
  match token.lexeme with
  | .text content | .name content =>
      some (state.focusing (.run (run.push (textPiece file token content))))
  | .hashWord .lemmeSee => some (state.focusing (.referenceName (some run) token.start))
  | .hashWord .mkay => some (closeRun file state run token)
  | _ => none

/-- The state after a reference, which goes on with the run it belongs to or is a node. -/
def closeReference (state : Inside) (host : Option OpenRun) (reference : Inline) : Inside :=
  match host with
  | some run => state.focusing (.run (run.push reference))
  | none => state.add (.inline reference)

/-- The state after the name of a declaration, which from now on waits for a value. -/
def declare (file : String) (state : Inside) (opened : Position) (token : Token)
    (name : String) : Inside :=
  { state.add (.declaration (spanTo file opened token) name) with
    pending := some name
    focus := .content true }

/-- The state after a token within the value of an assignment. The assignment takes the name that
waits for a value. -/
def assignment? (file : String) (state : Inside) (opened : Position) (parts : Array String)
    (token : Token) : Option Inside :=
  match token.lexeme with
  | .text content | .name content =>
      some (state.focusing (.assignment opened (parts.push content)))
  | .hashWord .mkay =>
      let node := .assignment (spanTo file opened token) state.pending (joined "" parts)
      some { state.add node with pending := none }
  | _ => none

/-- The state after the keyword of a styled node. -/
def style? (file : String) (state : Inside) (opened : Position) (token : Token) : Option Inside :=
  match token.lexeme with
  | .keyword .newline => some (state.add (.lineBreak (spanTo file opened token)))
  | .keyword .soundz => some (state.focusing (.media opened .sound #[]))
  | .keyword .vidz => some (state.focusing (.media opened .video #[]))
  | .keyword .bold => some (state.focusing (.run ⟨.emphasis opened .bold, #[]⟩))
  | .keyword .italics => some (state.focusing (.run ⟨.emphasis opened .italics, #[]⟩))
  | _ => none

/-- The state after a token within the address of embedded media. -/
def media? (file : String) (state : Inside) (opened : Position) (kind : Media)
    (parts : Array String) (token : Token) : Option Inside :=
  match token.lexeme with
  | .newline => some state
  | .text content | .name content =>
      some (state.focusing (.media opened kind (parts.push content)))
  | .hashWord .mkay =>
      some (state.add (.media (spanTo file opened token) kind (joined "" parts)))
  | _ => none

/-- The state inside the document after a token, or nothing if the token is refused. -/
def Inside.next? (file : String) (state : Inside) (token : Token) : Option State :=
  match state.focus with
  | .content declared =>
      match state.outer with
      | [] => topLevel? file state declared token
      | around :: outer => nested? file state around outer token
  | .sectionKind opened => (section? state opened token).map .inside
  | .head head => (head? file state head token).map .inside
  | .titleKeyword head opened =>
      if token.lexeme = .keyword .title then
        some (.inside (state.focusing (.title head opened #[])))
      else none
  | .title head opened parts => (title? file state head opened parts token).map .inside
  | .list list => (list? file state list token).map .inside
  | .itemKeyword list opened =>
      if token.lexeme = .keyword .item then
        some (.inside (state.focusing (.run ⟨.item list opened, #[]⟩)))
      else none
  | .run run => (run? file state run token).map .inside
  | .referenceName host opened =>
      match token.lexeme with
      | .name name => some (.inside (state.focusing (.referenceEnd host opened name)))
      | _ => none
  | .referenceEnd host opened name =>
      if token.lexeme = .hashWord .mkay then
        some (.inside (closeReference state host (.reference (spanTo file opened token) name)))
      else none
  | .declaration opened =>
      match token.lexeme with
      | .name name => some (.inside (declare file state opened token name))
      | _ => none
  | .assignment opened parts => (assignment? file state opened parts token).map .inside
  | .style opened => (style? file state opened token).map .inside
  | .media opened kind parts => (media? file state opened kind parts token).map .inside

/-- The state after a token, or nothing if the token is refused. Nothing but newlines may follow the
last word of the document. -/
def State.next? (file : String) (state : State) (token : Token) : Option State :=
  match state with
  | before =>
      if token.lexeme = .hashWord .hai then
        some (.inside ⟨none, ⟨token.start, #[]⟩, [], .content false⟩)
      else none
  | inside state => state.next? file token
  | after document => if token.lexeme = .newline then some (.after document) else none

end Reader

end LolMarkup
