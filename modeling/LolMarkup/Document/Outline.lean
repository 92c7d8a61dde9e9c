import LolMarkup.Document.Basic
import LolMarkup.Json

/-!
# Outlines of documents

The outline of a document is a JSON value that shows its tree. Each construct is an object with its
kind, the line and column where it starts, its own members and its children.
-/

namespace LolMarkup

namespace Outline

/-- The object of a construct that starts at the beginning of a span. -/
def object (kind : String) (span : Span) (members : List (String × Json)) : Json :=
  .object (("kind", .string kind) :: ("line", .number span.start.line) ::
    ("column", .number span.start.column) :: members)

end Outline

/-- The outline of a piece of a run. -/
def Inline.outline : Inline → Json
  | text span content => Outline.object "Text" span [("content", .string content)]
  | reference span name => Outline.object "VariableReference" span [("name", .string name)]

/-- The outline of a title. -/
def Title.outline (title : Title) : Json :=
  Outline.object "Title" title.span [("content", .string title.content)]

/-- The outline of an item. -/
def Item.outline (item : Item) : Json :=
  Outline.object "Item" item.span [("children", .array (item.children.map Inline.outline))]

/-- The kind that an emphasised run has in an outline. -/
def Emphasis.kindName : Emphasis → String
  | bold => "Bold"
  | italics => "Italics"

/-- The kind that embedded media have in an outline. -/
def Media.kindName : Media → String
  | sound => "Sound"
  | video => "Video"

mutual

/-- The outline of a node. An assignment without a name has no member for it. -/
def Node.outline : Node → Json
  | .head span titles =>
      Outline.object "HeadSection" span [("children", .array (titles.map Title.outline))]
  | .paragraf span children =>
      Outline.object "ParagrafSection" span [("children", .array (Node.outlines children))]
  | .list span items =>
      Outline.object "ListSection" span [("children", .array (items.map Item.outline))]
  | .declaration span name =>
      Outline.object "VariableDeclaration" span [("name", .string name)]
  | .assignment span none value =>
      Outline.object "VariableAssignment" span [("value", .string value)]
  | .assignment span (some name) value =>
      Outline.object "VariableAssignment" span [("name", .string name), ("value", .string value)]
  | .inline piece => piece.outline
  | .emphasis span style children =>
      Outline.object style.kindName span [("children", .array (children.map Inline.outline))]
  | .lineBreak span => Outline.object "Newline" span []
  | .media span kind url => Outline.object kind.kindName span [("url", .string url)]

/-- The outlines of nodes in order. -/
def Node.outlines : List Node → List Json
  | [] => []
  | node :: rest => Node.outline node :: Node.outlines rest

end

namespace Document

/-- The outline of the tree of a document. -/
def outline (document : Document) : Json :=
  Outline.object "Program" document.span
    [("children", .array (Node.outlines document.children))]

/-- The outline of a document together with the format's name and version and the file that the
document is recorded to come from. -/
def record (document : Document) (file : String) : Json :=
  .object [("format", .string "lolcode-markdown-ast"), ("version", .number 1),
    ("file", .string file), ("root", document.outline)]

end Document

end LolMarkup
