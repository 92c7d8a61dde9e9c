import LolMarkup.Proofs.Scoping.Resolution

/-!
# Pages as rows of slots

The shapes of HTML put something before their content and something after it (`Html.Frame`), so that
a page is a row of slots: HTML that stands in the document, and references (`Document.slots`). In
the page a reference is filled with its value, or with a placeholder if it has none, and the result
is a row of fragments (`Document.fragments`). The page consists of these fragments
(`Document.text_fragments`), and there are no placeholders if all references resolve
(`Document.fragments_of_resolved`).
-/

namespace LolMarkup

namespace Html

/-- What a shape puts before its content and after it. -/
structure Frame where
  opening : String
  closing : String

namespace Frame

/-- The content between the two. -/
def around (frame : Frame) (content : String) : String :=
  frame.opening ++ content ++ frame.closing

/-- The frame of an element. -/
def element (tag : String) : Frame :=
  ⟨"<" ++ tag ++ ">", "</" ++ tag ++ ">"⟩

/-- The frame of an element that ends its line. -/
def line (tag : String) : Frame :=
  ⟨(element tag).opening, Html.line (element tag).closing⟩

/-- The frame of an element whose content starts on a new line. -/
def block (tag : String) : Frame :=
  ⟨Html.line (element tag).opening, Html.line (element tag).closing⟩

/-- The frame of a page around its body. -/
def page : Frame :=
  ⟨Html.line "<!DOCTYPE html>" ++ Html.line (element "html").opening ++ pageHead ++
    (block "body").opening, (block "body").closing ++ (element "html").closing⟩

end Frame

/-- An element is its content between two tags. -/
theorem element_eq (tag content : String) :
    element tag content = (Frame.element tag).around content := by
  simp only [element, Frame.around, Frame.element, String.append_assoc]

/-- An element with a line of its own is its content between two tags. -/
theorem lineElement_eq (tag content : String) :
    lineElement tag content = (Frame.line tag).around content := by
  simp only [lineElement, line, element, Frame.around, Frame.element, Frame.line,
    String.append_assoc]

/-- A block is its content between two tags. -/
theorem blockElement_eq (tag content : String) :
    blockElement tag content = (Frame.block tag).around content := by
  simp only [blockElement, lineElement, line, element, Frame.around, Frame.element, Frame.block,
    String.append_assoc, String.empty_append]

/-- A page is its body between what stands before and after it. -/
theorem page_eq (body : String) : page body = Frame.page.around body := by
  rw [page, element_eq, blockElement_eq]
  simp only [line, Frame.around, Frame.page, Frame.block, Frame.element, String.append_assoc,
    String.empty_append]

end Html

/-! ## Fragments and slots -/

/-- A piece of a page: HTML as it stands, or the placeholder of a name without a value. -/
inductive Fragment where
  | plain (html : String)
  | placeholder (name : String)
deriving DecidableEq, Repr

namespace Fragment

/-- The HTML of a fragment. -/
def html : Fragment → String
  | plain html => html
  | placeholder name => Html.spaced (Html.unresolved name)

/-- The HTML of fragments that follow one another. -/
def text (fragments : List Fragment) : String :=
  .join (fragments.map html)

end Fragment

namespace Scoping

/-- A piece of a page before references are filled in. -/
inductive Slot where
  | plain (html : String)
  | reference (site : Site)
deriving DecidableEq, Repr

namespace Slot

/-- Slots within a frame. -/
def framed (frame : Html.Frame) (content : List Slot) : List Slot :=
  .plain frame.opening :: (content ++ [.plain frame.closing])

/-- The value of a name after the given past, if it has one within the given scopes. -/
def value? (past : List Site) (site : Site) : Option String :=
  (holder? past site.scopes site.use.name).bind (Scoping.value? · site.use.name past)

/-- A slot filled in: a reference by the value of its name, or by a placeholder. -/
def fill (past : Address → List Site) : Slot → Fragment
  | plain html => .plain html
  | reference site =>
      match value? (past site.address) site with
      | some value => .plain (Html.spaced value)
      | none => .placeholder site.use.name

/-- The HTML of slots that are filled in. -/
def text (past : Address → List Site) (slots : List Slot) : String :=
  Fragment.text (slots.map (fill past))

end Slot

/-- The slots of a piece of a run. -/
def inlineSlots (scopes : List Address) (checked : Bool) (address : Address) : Inline → List Slot
  | .text _ content => [.plain (Html.spaced content)]
  | .reference span name => [.reference ⟨address, scopes, checked, span, .refers name⟩]

/-- The slots of a run. -/
def runSlots (scopes : List Address) (checked : Bool) (parent : Address) (run : List Inline) :
    List Slot :=
  (numbered parent 0 run).flatMap fun child => inlineSlots scopes checked child.1 child.2

/-- The slots of the items of a list. -/
def itemSlots (scopes : List Address) (parent : Address) (items : List Item) : List Slot :=
  (numbered parent 0 items).flatMap fun child =>
    Slot.framed (.line "li") (runSlots scopes false child.1 child.2.children)

mutual

/-- The slots of a node. -/
def nodeSlots (scopes : List Address) (address : Address) : Node → List Slot
  | .head _ titles => [.plain (.join (titles.map Title.html))]
  | .paragraf _ children =>
      Slot.framed (.block "p") (nodesSlots (address :: scopes) address 0 children)
  | .list _ items => Slot.framed (.block "ul") (itemSlots (address :: scopes) address items)
  | .declaration _ _ | .assignment _ _ _ => []
  | .inline piece => inlineSlots scopes true address piece
  | .emphasis _ style children =>
      Slot.framed (.element style.tag) (runSlots scopes true address children)
  | .lineBreak _ => [.plain Html.lineBreak]
  | .media _ kind url => [.plain (Html.player kind.tag url)]

/-- The slots of nodes that follow one another. -/
def nodesSlots (scopes : List Address) (parent : Address) (index : Nat) : List Node → List Slot
  | [] => []
  | node :: rest =>
      nodeSlots scopes (parent ++ [index]) node ++ nodesSlots scopes parent (index + 1) rest

end

end Scoping

namespace Document

open Scoping

/-- The slots of the page of a document. -/
def slots (document : Document) : List Slot :=
  Slot.framed .page (nodesSlots [root] root 0 document.children)

/-- The fragments of the page of a document. -/
def fragments (document : Document) : List Fragment :=
  document.slots.map (Slot.fill document.past)

end Document

/-! ## The text of slots -/

/-- The text of fragments that follow one another follows one another. -/
theorem Fragment.text_append (first second : List Fragment) :
    text (first ++ second) = text first ++ text second := by
  rw [text, List.map_append, String.join_append]
  rfl

namespace Scoping

variable {past : Address → List Site} {scopes : List Address} {address parent : Address}

namespace Slot

/-- The text of slots that follow one another follows one another. -/
theorem text_append (first second : List Slot) :
    text past (first ++ second) = text past first ++ text past second := by
  rw [text, List.map_append, Fragment.text_append]
  rfl

/-- One slot has the text with which it is filled. -/
theorem text_singleton (slot : Slot) : text past [slot] = (slot.fill past).html := by
  simp [text, Fragment.text]

/-- Slots within a frame have their text within the frame. -/
theorem text_framed (frame : Html.Frame) (content : List Slot) :
    text past (framed frame content) = frame.around (text past content) := by
  rw [framed, ← List.singleton_append, text_append, text_append, text_singleton, text_singleton,
    ← String.append_assoc]
  rfl

/-- The slots of elements have the texts of the elements. -/
theorem text_flatMap {α : Type} (slotsOf : α → List Slot) (xs : List α) :
    text past (xs.flatMap slotsOf) = .join (xs.map fun x => text past (slotsOf x)) := by
  induction xs with
  | nil => rfl
  | cons x xs ih => rw [List.flatMap_cons, text_append, ih, List.map_cons, String.join_cons]

end Slot

/-- The slots of a piece have the text that its position says. -/
theorem text_inlineSlots (checked : Bool) (piece : Inline) :
    Slot.text past (inlineSlots scopes checked address piece) =
      inlineHtml past scopes address piece := by
  cases piece with
  | text span content => exact Slot.text_singleton _
  | reference span name =>
      rw [inlineSlots, Slot.text_singleton, Slot.fill, inlineHtml, shown]
      simp only [Slot.value?, Use.name]
      cases (holder? (past address) scopes name).bind (value? · name (past address)) <;> rfl

/-- The slots of a run have the text that its positions say. -/
theorem text_runSlots (checked : Bool) (run : List Inline) :
    Slot.text past (runSlots scopes checked parent run) = runHtml past scopes parent run := by
  simp only [runSlots, Slot.text_flatMap, text_inlineSlots, runHtml]

/-- The slots of items have the text that their positions say. -/
theorem text_itemSlots (items : List Item) :
    Slot.text past (itemSlots scopes parent items) = itemsHtml past scopes parent items := by
  simp only [itemSlots, Slot.text_flatMap, Slot.text_framed, text_runSlots, itemsHtml, Html.bullet,
    Html.lineElement_eq]

mutual

/-- The slots of a node have the text that its positions say. -/
theorem text_nodeSlots (past : Address → List Site) (scopes : List Address) (address : Address)
    (node : Node) :
    Slot.text past (nodeSlots scopes address node) = nodeHtml past scopes address node := by
  cases node with
  | head | lineBreak | media => exact Slot.text_singleton _
  | paragraf span children =>
      rw [nodeSlots, Slot.text_framed, text_nodesSlots, nodeHtml, Html.paragraph,
        Html.blockElement_eq]
  | list span items =>
      rw [nodeSlots, Slot.text_framed, text_itemSlots, nodeHtml, Html.bulletList,
        Html.blockElement_eq]
  | declaration | assignment => rfl
  | inline piece => exact text_inlineSlots true piece
  | emphasis span style children =>
      rw [nodeSlots, Slot.text_framed, text_runSlots, nodeHtml, Html.element_eq]

/-- The slots of nodes have the text that their positions say. -/
theorem text_nodesSlots (past : Address → List Site) (scopes : List Address) (parent : Address)
    (index : Nat) (nodes : List Node) :
    Slot.text past (nodesSlots scopes parent index nodes) =
      nodesHtml past scopes parent index nodes := by
  cases nodes with
  | nil => rfl
  | cons node rest =>
      rw [nodesSlots, Slot.text_append, text_nodeSlots, text_nodesSlots, nodesHtml]

end

/-! ## The sites of references -/

/-- There are no references in a frame. -/
theorem Slot.mem_of_mem_framed {frame : Html.Frame} {content : List Slot} {site : Site}
    (h : .reference site ∈ Slot.framed frame content) : .reference site ∈ content := by
  simpa [Slot.framed] using h

/-- One of the sites, which is a reference. -/
def RefersAmong (sites : List Site) (site : Site) : Prop :=
  site ∈ sites ∧ ∃ name, site.use = .refers name

/-- A reference among some sites is one among more of them. -/
theorem RefersAmong.mono {sites more : List Site} {site : Site} (h : RefersAmong sites site)
    (hsub : ∀ other ∈ sites, other ∈ more) : RefersAmong more site :=
  ⟨hsub site h.1, h.2⟩

variable {checked : Bool} {site : Site}

/-- A reference in the slots of a piece is among its sites. -/
theorem refersAmong_inlineSites {piece : Inline}
    (h : .reference site ∈ inlineSlots scopes checked address piece) :
    RefersAmong (inlineSites scopes checked address piece) site := by
  cases piece with
  | text => simp [inlineSlots] at h
  | reference span name =>
      obtain rfl : site = ⟨address, scopes, checked, span, .refers name⟩ := by
        simpa [inlineSlots] using h
      exact ⟨List.mem_singleton_self _, name, rfl⟩

/-- A reference in the slots of a run is among its sites. -/
theorem refersAmong_runSites {run : List Inline}
    (h : .reference site ∈ runSlots scopes checked parent run) :
    RefersAmong (runSites scopes checked parent run) site := by
  obtain ⟨child, hchild, hslot⟩ := List.mem_flatMap.mp h
  exact (refersAmong_inlineSites hslot).mono fun _ hother =>
    List.mem_flatMap.mpr ⟨child, hchild, hother⟩

/-- A reference in the slots of items is among their sites. -/
theorem refersAmong_itemSites {items : List Item}
    (h : .reference site ∈ itemSlots scopes parent items) :
    RefersAmong (itemSites scopes parent items) site := by
  obtain ⟨child, hchild, hslot⟩ := List.mem_flatMap.mp h
  exact (refersAmong_runSites (Slot.mem_of_mem_framed hslot)).mono fun _ hother =>
    List.mem_flatMap.mpr ⟨child, hchild, hother⟩

mutual

/-- A reference in the slots of a node is among its sites. -/
theorem refersAmong_nodeSites {scopes : List Address} {address : Address} {node : Node}
    (h : .reference site ∈ nodeSlots scopes address node) :
    RefersAmong (nodeSites scopes address node) site := by
  cases node with
  | head | lineBreak | media => simp [nodeSlots] at h
  | declaration | assignment => cases h
  | paragraf span children =>
      rw [nodeSlots] at h
      exact refersAmong_nodesSites (Slot.mem_of_mem_framed h)
  | list span items =>
      rw [nodeSlots] at h
      exact refersAmong_itemSites (Slot.mem_of_mem_framed h)
  | inline piece => exact refersAmong_inlineSites h
  | emphasis span style children =>
      rw [nodeSlots] at h
      exact refersAmong_runSites (Slot.mem_of_mem_framed h)

/-- What stands in a slot is a site that is a reference. -/
theorem refersAmong_nodesSites {scopes : List Address} {parent : Address} {index : Nat}
    {nodes : List Node} (h : .reference site ∈ nodesSlots scopes parent index nodes) :
    RefersAmong (nodesSites scopes parent index nodes) site := by
  cases nodes with
  | nil => cases h
  | cons node rest =>
      rw [nodesSlots, List.mem_append] at h
      rw [nodesSites]
      rcases h with hnode | hrest
      · exact (refersAmong_nodeSites hnode).mono fun _ => List.mem_append_left _
      · exact (refersAmong_nodesSites hrest).mono fun _ => List.mem_append_right _

end

end Scoping

open Scoping

/-- The page of a document consists of its fragments. -/
theorem Document.text_fragments (document : Document) :
    document.render.html = Fragment.text document.fragments := by
  rw [document.render_html_eq_page, page, Html.page_eq, ← text_nodesSlots, ← Slot.text_framed]
  rfl

/-- A reference that resolves to an assignment has a value. -/
theorem Document.isSome_value?_of_resolved? {document : Document} {site : Site}
    (h : (document.resolved? site).isSome = true) :
    (Slot.value? (document.past site.address) site).isSome = true := by
  obtain ⟨assignment, hresolved⟩ := Option.isSome_iff_exists.mp h
  obtain ⟨scope, hholder, hassigner⟩ := Option.bind_eq_some_iff.mp hresolved
  obtain ⟨value, -, -, hvalue⟩ := exists_value_of_assigner? hassigner
  rw [Slot.value?, hholder, Option.bind_some, hvalue, Option.isSome_some]

/-- If all uses of names that are references resolve, the page has no placeholder. -/
theorem Document.fragments_of_resolved {document : Document}
    (h : ∀ site ∈ document.sites, ∀ name, site.use = .refers name →
      (document.resolved? site).isSome = true) :
    ∀ fragment ∈ document.fragments, ∃ html, fragment = .plain html := by
  intro fragment hfragment
  obtain ⟨slot, hslot, rfl⟩ := List.mem_map.mp hfragment
  cases slot with
  | plain html => exact ⟨html, rfl⟩
  | reference site =>
      obtain ⟨hsite, name, huse⟩ := refersAmong_nodesSites (Slot.mem_of_mem_framed hslot)
      have hresolved := Document.isSome_value?_of_resolved? (h site hsite name huse)
      obtain ⟨value, hvalue⟩ := Option.isSome_iff_exists.mp hresolved
      exact ⟨Html.spaced value, by simp only [Slot.fill, hvalue]⟩

end LolMarkup
