import LolMarkup.Diagnostic
import LolMarkup.Document.Basic
import LolMarkup.Html
import LolMarkup.Scopes

/-!
# Rendering documents

A document is rendered in one walk that also checks its names. Each paragraf is a scope of its own.
A problem never stops the walk: a reference without a value is rendered as a placeholder and
reported. The items of lists are rendered but not checked.
-/

namespace LolMarkup

/-- What can be wrong with the use of a name. -/
inductive ScopeFault where
  | redeclared
  | undeclared
  | unassigned
  | assignedUndeclared
deriving DecidableEq, Repr

namespace ScopeFault

/-- The code under which a fault is diagnosed. -/
def code : ScopeFault → Code
  | redeclared => .redeclared
  | undeclared => .undeclared
  | unassigned => .unassigned
  | assignedUndeclared => .assignedUndeclared

/-- What the user is told about a name with this fault. -/
def message (name : String) : ScopeFault → String
  | redeclared => s!"Variable '{name}' is already declared in this scope"
  | undeclared => s!"Variable '{name}' is used but never declared"
  | unassigned => s!"Variable '{name}' is used but never assigned a value"
  | assignedUndeclared => s!"Cannot assign to undeclared variable '{name}'"

end ScopeFault

/-- A wrong use of a name at a place in the document. -/
structure Problem where
  fault : ScopeFault
  name : String
  span : Span
deriving DecidableEq, Repr

/-- The diagnostic of a problem. -/
def Problem.diagnostic (problem : Problem) : Diagnostic :=
  ⟨problem.fault.code, .error, problem.fault.message problem.name, problem.span.file,
    some problem.span.start.line, some problem.span.start.column⟩

/-- The HTML of a part of a document, and the problems met in it from left to right. -/
structure Rendering where
  html : String
  problems : List Problem
deriving DecidableEq, Repr

namespace Rendering

/-- The rendering of nothing. -/
def empty : Rendering := ⟨"", []⟩

/-- HTML without problems. -/
def ofHtml (html : String) : Rendering := ⟨html, []⟩

/-- The rendering of two parts that follow one another. -/
def append (first second : Rendering) : Rendering :=
  ⟨first.html ++ second.html, first.problems ++ second.problems⟩

/-- Renderings are put one after another with `++`. -/
instance : Append Rendering := ⟨append⟩

/-- The rendering of a part within a surrounding shape. -/
def within (shape : String → String) (content : Rendering) : Rendering :=
  { content with html := shape content.html }

/-- The rendering of parts that follow one another. -/
def concat (parts : List Rendering) : Rendering :=
  parts.foldr append empty

end Rendering

/-- The rendering of a piece of a run. -/
def Inline.render (scopes : Scopes) : Inline → Rendering
  | text _ content => .ofHtml (Html.spaced content)
  | reference span name =>
      match scopes.lookup name with
      | some (.assigned value) => .ofHtml (Html.spaced value)
      | some .unassigned =>
          ⟨Html.spaced (Html.unresolved name), [⟨.unassigned, name, span⟩]⟩
      | none => ⟨Html.spaced (Html.unresolved name), [⟨.undeclared, name, span⟩]⟩

/-- The rendering of a run. -/
def Inline.renderRun (scopes : Scopes) (run : List Inline) : Rendering :=
  .concat (run.map (render scopes))

/-- The HTML of a title. -/
def Title.html (title : Title) : String :=
  Html.heading title.content

/-- The HTML of an item, whose problems are not reported. -/
def Item.html (scopes : Scopes) (item : Item) : String :=
  Html.bullet (Inline.renderRun scopes item.children).html

/-- The tag of an emphasised run. -/
def Emphasis.tag : Emphasis → String
  | bold => "b"
  | italics => "i"

/-- The tag of a player for embedded media. -/
def Media.tag : Media → String
  | sound => "audio"
  | video => "video"

mutual

/-- Render a node in the given scopes. The result holds the scopes as the node leaves them. -/
def Node.render (scopes : Scopes) : Node → Scopes × Rendering
  | .head _ titles => (scopes, .ofHtml (String.join (titles.map Title.html)))
  | .paragraf _ children =>
      let (inner, content) := Node.renderAll scopes.push children
      (inner.pop, content.within Html.paragraph)
  | .list _ items =>
      (scopes, .ofHtml (Html.bulletList (String.join (items.map (Item.html scopes.push)))))
  | .declaration span name =>
      match scopes.declare? name with
      | some declared => (declared, .empty)
      | none => (scopes, ⟨"", [⟨.redeclared, name, span⟩]⟩)
  | .assignment _ none _ => (scopes, .empty)
  | .assignment span (some name) value =>
      match scopes.assign? name value with
      | some assigned => (assigned, .empty)
      | none => (scopes, ⟨"", [⟨.assignedUndeclared, name, span⟩]⟩)
  | .inline piece => (scopes, piece.render scopes)
  | .emphasis _ style children =>
      (scopes, (Inline.renderRun scopes children).within (Html.element style.tag))
  | .lineBreak _ => (scopes, .ofHtml Html.lineBreak)
  | .media _ kind url => (scopes, .ofHtml (Html.player kind.tag url))

/-- Render nodes that follow one another, each in the scopes that the one before leaves. -/
def Node.renderAll (scopes : Scopes) : List Node → Scopes × Rendering
  | [] => (scopes, .empty)
  | node :: rest =>
      let (next, first) := Node.render scopes node
      let (last, others) := Node.renderAll next rest
      (last, first ++ others)

end

namespace Document

/-- Render a document to a page, with the problems met on the way. -/
def render (document : Document) : Rendering :=
  (Node.renderAll .initial document.children).2.within Html.page

/-- The diagnostics of a document's problems. A document without any is valid. -/
def diagnostics (document : Document) : List Diagnostic :=
  document.render.problems.map Problem.diagnostic

end Document

end LolMarkup
