/-!
# HTML fragments

The shapes of HTML that documents are rendered to. Content is inserted as it stands, so HTML written
in a document passes through.
-/

namespace LolMarkup.Html

/-- An element with the given tag around its content. -/
def element (tag content : String) : String :=
  "<" ++ tag ++ ">" ++ content ++ "</" ++ tag ++ ">"

/-- A fragment that ends its line. -/
def line (fragment : String) : String :=
  fragment ++ "\n"

/-- An element that ends its line. -/
def lineElement (tag content : String) : String :=
  line (element tag content)

/-- An element whose content starts on a new line. -/
def blockElement (tag content : String) : String :=
  lineElement tag (line "" ++ content)

/-- The title of every page. -/
def pageTitle : String := "LOLCODE Markdown"

/-- The head of every page. -/
def pageHead : String :=
  blockElement "head" (line "<meta charset=\"UTF-8\">" ++ lineElement "title" pageTitle)

/-- A whole page with the given body. -/
def page (body : String) : String :=
  line "<!DOCTYPE html>" ++ element "html" (line "" ++ pageHead ++ blockElement "body" body)

/-- A paragraph. -/
def paragraph (content : String) : String :=
  blockElement "p" content

/-- A list of bullets. -/
def bulletList (content : String) : String :=
  blockElement "ul" content

/-- One bullet of a list. -/
def bullet (content : String) : String :=
  lineElement "li" content

/-- A heading. -/
def heading (content : String) : String :=
  lineElement "h1" content

/-- A line break. -/
def lineBreak : String :=
  line "<br>"

/-- A player with the given tag for what stands at an address. -/
def player (tag url : String) : String :=
  line ("<" ++ tag ++ " controls src=\"" ++ url ++ "\"></" ++ tag ++ ">")

/-- Text with a space after it that keeps it apart from what follows. -/
def spaced (content : String) : String :=
  content ++ " "

/-- What stands in the place of a name that has no value. -/
def unresolved (name : String) : String :=
  "[undefined: " ++ name ++ "]"

end LolMarkup.Html
