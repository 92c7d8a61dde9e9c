import LolMarkup.Document.Rendering

/-!
# The names of a document by position

A stack-free account of names. Every use of a name is a `Site` with its address in the tree and the
addresses of the scopes around it. Which declarations and assignments count at a site is decided by
the sites that come before it in the document (`Document.past`), the order of the document being the
lexicographic order of addresses. `Document.problems` are the wrong uses in the order of the
document, and `Document.page` is its page with every reference shown as its position says.
-/

namespace LolMarkup

namespace Scoping

/-- The indices that lead from the root of a document to one of its constructs. -/
abbrev Address := List Nat

/-- What is done with a name. -/
inductive Use where
  | declares (name : String)
  | assigns (name value : String)
  | refers (name : String)
deriving DecidableEq, Repr

/-- The name that is used. -/
def Use.name : Use → String
  | declares name => name
  | assigns name _ => name
  | refers name => name

/-- A use of a name: its address, the scopes around it from the inside out, whether it is checked,
and the text it was read from. -/
structure Site where
  address : Address
  scopes : List Address
  checked : Bool
  span : Span
  use : Use
deriving DecidableEq, Repr

/-- The addresses of constructs that follow one another under the same parent. -/
def numbered {α : Type} (parent : Address) (index : Nat) : List α → List (Address × α)
  | [] => []
  | x :: xs => (parent ++ [index], x) :: numbered parent (index + 1) xs

/-! ## The sites of a document -/

/-- The sites of a piece of a run. -/
def inlineSites (scopes : List Address) (checked : Bool) (address : Address) : Inline → List Site
  | .text _ _ => []
  | .reference span name => [⟨address, scopes, checked, span, .refers name⟩]

/-- The sites of a run. -/
def runSites (scopes : List Address) (checked : Bool) (parent : Address) (run : List Inline) :
    List Site :=
  (numbered parent 0 run).flatMap fun child => inlineSites scopes checked child.1 child.2

/-- The sites of the items of a list, which are not checked. -/
def itemSites (scopes : List Address) (parent : Address) (items : List Item) : List Site :=
  (numbered parent 0 items).flatMap fun child => runSites scopes false child.1 child.2.children

mutual

/-- The sites of a node in the order of the document. Paragrafs and lists are scopes. -/
def nodeSites (scopes : List Address) (address : Address) : Node → List Site
  | .paragraf _ children => nodesSites (address :: scopes) address 0 children
  | .list _ items => itemSites (address :: scopes) address items
  | .declaration span name => [⟨address, scopes, true, span, .declares name⟩]
  | .assignment span (some name) value => [⟨address, scopes, true, span, .assigns name value⟩]
  | .inline piece => inlineSites scopes true address piece
  | .emphasis _ _ children => runSites scopes true address children
  | .assignment _ none _ | .head _ _ | .lineBreak _ | .media _ _ _ => []

/-- The sites of nodes that follow one another. -/
def nodesSites (scopes : List Address) (parent : Address) (index : Nat) : List Node → List Site
  | [] => []
  | node :: rest =>
      nodeSites scopes (parent ++ [index]) node ++ nodesSites scopes parent (index + 1) rest

end

/-! ## What is in force after some sites

The sites of a past are given with the latest first. -/

/-- Whether a declaration of the name has the given scope as its nearest one. -/
def declared (past : List Site) (scope : Address) (name : String) : Bool :=
  past.any fun site => site.use = .declares name ∧ site.scopes.head? = some scope

/-- The innermost of some scopes that has the name. -/
def holder? (past : List Site) (scopes : List Address) (name : String) : Option Address :=
  scopes.find? (declared past · name)

/-- The value of the last assignment of the name that went to the given scope. An assignment goes to
the innermost of its scopes that has the name at that point. -/
def value? (scope : Address) (name : String) : List Site → Option String
  | [] => none
  | site :: past =>
      match site.use with
      | .assigns target value =>
          if target = name ∧ holder? past site.scopes name = some scope then some value
          else value? scope name past
      | _ => value? scope name past

/-- What is wrong with the use of a name after the given past. -/
def Site.fault? (past : List Site) (site : Site) : Option ScopeFault :=
  match site.use with
  | .declares name =>
      if site.scopes.head?.any (declared past · name) then some .redeclared else none
  | .assigns name _ =>
      if (holder? past site.scopes name).isNone then some .assignedUndeclared else none
  | .refers name =>
      if site.checked then
        match holder? past site.scopes name with
        | none => some .undeclared
        | some scope => if (value? scope name past).isNone then some .unassigned else none
      else none

/-- The problem of a site after the given past. -/
def Site.problem? (past : List Site) (site : Site) : Option Problem :=
  (site.fault? past).map (⟨·, site.use.name, site.span⟩)

/-- What a reference within the given scopes shows after the given past. -/
def shown (past : List Site) (scopes : List Address) (name : String) : String :=
  Html.spaced (((holder? past scopes name).bind (value? · name past)).getD (Html.unresolved name))

/-! ## HTML by position -/

/-- The HTML of a piece of a run, given what comes before each address. -/
def inlineHtml (past : Address → List Site) (scopes : List Address) (address : Address) :
    Inline → String
  | .text _ content => Html.spaced content
  | .reference _ name => shown (past address) scopes name

/-- The HTML of a run. -/
def runHtml (past : Address → List Site) (scopes : List Address) (parent : Address)
    (run : List Inline) : String :=
  .join ((numbered parent 0 run).map fun child => inlineHtml past scopes child.1 child.2)

/-- The HTML of the items of a list. -/
def itemsHtml (past : Address → List Site) (scopes : List Address) (parent : Address)
    (items : List Item) : String :=
  .join ((numbered parent 0 items).map fun child =>
    Html.bullet (runHtml past scopes child.1 child.2.children))

mutual

/-- The HTML of a node. -/
def nodeHtml (past : Address → List Site) (scopes : List Address) (address : Address) :
    Node → String
  | .head _ titles => .join (titles.map Title.html)
  | .paragraf _ children => Html.paragraph (nodesHtml past (address :: scopes) address 0 children)
  | .list _ items => Html.bulletList (itemsHtml past (address :: scopes) address items)
  | .declaration _ _ | .assignment _ _ _ => ""
  | .inline piece => inlineHtml past scopes address piece
  | .emphasis _ style children => Html.element style.tag (runHtml past scopes address children)
  | .lineBreak _ => Html.lineBreak
  | .media _ kind url => Html.player kind.tag url

/-- The HTML of nodes that follow one another. -/
def nodesHtml (past : Address → List Site) (scopes : List Address) (parent : Address)
    (index : Nat) : List Node → String
  | [] => ""
  | node :: rest =>
      nodeHtml past scopes (parent ++ [index]) node ++
        nodesHtml past scopes parent (index + 1) rest

end

end Scoping

namespace Document

open Scoping

/-- The address of the outermost scope, which is the document itself. -/
def root : Address := []

/-- All sites of a document in its order. -/
def sites (document : Document) : List Site :=
  nodesSites [root] root 0 document.children

/-- The sites that come before an address, the latest first. -/
def past (document : Document) (address : Address) : List Site :=
  (document.sites.filter (·.address < address)).reverse

/-- The problems of a document by position. -/
def problems (document : Document) : List Problem :=
  document.sites.filterMap fun site => site.problem? (document.past site.address)

/-- The page of a document by position. -/
def page (document : Document) : String :=
  Html.page (nodesHtml document.past [root] root 0 document.children)

end Document

end LolMarkup
