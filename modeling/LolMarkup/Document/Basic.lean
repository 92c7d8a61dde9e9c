import LolMarkup.Source

/-!
# Documents

A document is a sequence of nodes between its first and its last word. Sections hold further
content: a head holds titles, a paragraf holds nodes, a list holds items. Emphasis and items hold
runs of text and references. Every construct records the span of text it was read from.
-/

namespace LolMarkup

/-- A piece of a run: text, or a reference to a variable. -/
inductive Inline where
  | text (span : Span) (content : String)
  | reference (span : Span) (name : String)
deriving DecidableEq, Repr

/-- A title of a head section. -/
structure Title where
  span : Span
  content : String
deriving DecidableEq, Repr

/-- An item of a list section. -/
structure Item where
  span : Span
  children : List Inline
deriving DecidableEq, Repr

/-- The ways of emphasising a run. -/
inductive Emphasis where
  | bold
  | italics
deriving DecidableEq, Repr

/-- The kinds of embedded media. -/
inductive Media where
  | sound
  | video
deriving DecidableEq, Repr

/-- A construct that may stand in a document or in a paragraf. An assignment has no name if no
declaration was waiting for a value when it was read. -/
inductive Node where
  | head (span : Span) (titles : List Title)
  | paragraf (span : Span) (children : List Node)
  | list (span : Span) (items : List Item)
  | declaration (span : Span) (name : String)
  | assignment (span : Span) (name : Option String) (value : String)
  | inline (piece : Inline)
  | emphasis (span : Span) (style : Emphasis) (children : List Inline)
  | lineBreak (span : Span)
  | media (span : Span) (kind : Media) (url : String)
deriving Repr

/-- A whole document. -/
structure Document where
  span : Span
  children : List Node
deriving Repr

/-- The span of a piece of a run. -/
def Inline.span : Inline → Span
  | text span _ => span
  | reference span _ => span

/-- The span of a node. -/
def Node.span : Node → Span
  | head span _ => span
  | paragraf span _ => span
  | list span _ => span
  | declaration span _ => span
  | assignment span _ _ => span
  | inline piece => piece.span
  | emphasis span _ _ => span
  | lineBreak span => span
  | media span _ _ => span

end LolMarkup
