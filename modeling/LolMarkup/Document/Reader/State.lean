import LolMarkup.Document.Basic
import LolMarkup.Document.ReadError

/-!
# The state of the reader

The reader takes one token at a time. Between two tokens its state is the construct it is in the
middle of, the sections that are still open around it, and the declared name that waits for a value.
What a state expects when it refuses a token depends on the state alone.
-/

namespace LolMarkup

namespace Reader

/-- A sequence of nodes that is still being read, with the position of its first word. The outermost
block is the document itself, the others are paragrafs. -/
structure Block where
  opened : Position
  children : Array Node
deriving Repr

/-- A head section that is still being read. -/
structure OpenHead where
  opened : Position
  titles : Array Title
deriving DecidableEq, Repr

/-- A list section that is still being read. -/
structure OpenList where
  opened : Position
  items : Array Item
deriving DecidableEq, Repr

/-- What a run of text and references will become when it is closed. -/
inductive RunHost where
  | emphasis (opened : Position) (style : Emphasis)
  | item (list : OpenList) (opened : Position)
deriving DecidableEq, Repr

/-- A run of text and references that is still being read. -/
structure OpenRun where
  host : RunHost
  pieces : Array Inline
deriving DecidableEq, Repr

/-- The construct in whose middle the reader is. Most constructs carry the position of their first
word. A reference carries the run it belongs to, if it is not a node of its own. -/
inductive Focus where
  /-- Between two nodes of the innermost block. The flag says that only newlines were read since a
  declaration, so that its assignment may follow. -/
  | content (declared : Bool)
  /-- After `#MAEK`. -/
  | sectionKind (opened : Position)
  /-- Between two titles of a head. -/
  | head (head : OpenHead)
  /-- After the `#GIMMEH` of a title. -/
  | titleKeyword (head : OpenHead) (opened : Position)
  /-- Within a title. -/
  | title (head : OpenHead) (opened : Position) (parts : Array String)
  /-- Between two items of a list. -/
  | list (list : OpenList)
  /-- After the `#GIMMEH` of an item. -/
  | itemKeyword (list : OpenList) (opened : Position)
  /-- Within a run of text and references. -/
  | run (run : OpenRun)
  /-- After `#LEMME SEE`. -/
  | referenceName (host : Option OpenRun) (opened : Position)
  /-- After the name of a reference. -/
  | referenceEnd (host : Option OpenRun) (opened : Position) (name : String)
  /-- After `#I HAZ`. -/
  | declaration (opened : Position)
  /-- Within the value of an assignment. -/
  | assignment (opened : Position) (parts : Array String)
  /-- After the `#GIMMEH` of a styled node. -/
  | style (opened : Position)
  /-- Within the address of embedded media. -/
  | media (opened : Position) (kind : Media) (parts : Array String)
deriving DecidableEq, Repr

/-- The state of the reader inside a document: the declared name that waits for a value, the
innermost block, the blocks around it from the inside out, and the construct being read. -/
structure Inside where
  pending : Option String
  block : Block
  outer : List Block
  focus : Focus
deriving Repr

/-- The state of the reader: before the first word, inside the document, or after its last word. -/
inductive State where
  | before
  | inside (state : Inside)
  | after (document : Document)
deriving Repr

/-- What the reader expects while it is in the middle of a construct. -/
def Focus.expectation (nested : Bool) : Focus → Expectation
  | content _ => .word (if nested then .oic else .kthxbye)
  | sectionKind _ => .sectionKind
  | head _ => .word .oic
  | titleKeyword _ _ => .keyword .title
  | title _ _ _ => .titleText
  | list _ => .word .oic
  | itemKeyword _ _ => .keyword .item
  | run _ => .word .mkay
  | referenceName _ _ => .nameAfter .lemmeSee
  | referenceEnd _ _ _ => .word .mkay
  | declaration _ => .nameAfter .iHaz
  | assignment _ _ => .word .mkay
  | style _ => .style
  | media _ _ _ => .word .mkay

/-- What the reader reports as expected when it refuses a token. -/
def State.expectation : State → Expectation
  | before => .word .hai
  | inside state => state.focus.expectation (!state.outer.isEmpty)
  | after _ => .endOfInput

end Reader

end LolMarkup
