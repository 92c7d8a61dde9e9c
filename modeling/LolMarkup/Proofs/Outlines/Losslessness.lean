import LolMarkup.Artifact
import LolMarkup.Proofs.Outlines.UniqueReading

/-!
# What the file of an outline keeps

`Document.reduced` is a document in which every span is reduced to the line and column where it
starts. The outline of a document depends on no more than that (`Document.outline_reduced`) and
shows all of it (`Document.reduced_eq_of_outline`): the kind of a construct tells which constructor
it comes from (`Node.kind_eq_of_outline`), and its members tell the rest. Since a JSON text has one
reading, `fileText_outline_eq_iff` says the same of the files: two outlines are the same file if and
only if they record the same path and the same reduced document.
-/

namespace LolMarkup

/-! ## Reduced documents -/

/-- A span of which only the line and column of its start are left. -/
def Span.reduced (span : Span) : Span :=
  ⟨"", ⟨span.start.line, span.start.column, 0⟩, ⟨0, 0, 0⟩⟩

/-- A piece of a run with its span reduced. -/
def Inline.reduced : Inline → Inline
  | text span content => text span.reduced content
  | reference span name => reference span.reduced name

/-- A title with its span reduced. -/
def Title.reduced (title : Title) : Title :=
  ⟨title.span.reduced, title.content⟩

/-- An item with its spans reduced. -/
def Item.reduced (item : Item) : Item :=
  ⟨item.span.reduced, item.children.map Inline.reduced⟩

mutual

/-- A node with its spans reduced. -/
def Node.reduced : Node → Node
  | .head span titles => .head span.reduced (titles.map Title.reduced)
  | .paragraf span children => .paragraf span.reduced (Node.reducedAll children)
  | .list span items => .list span.reduced (items.map Item.reduced)
  | .declaration span name => .declaration span.reduced name
  | .assignment span name value => .assignment span.reduced name value
  | .inline piece => .inline piece.reduced
  | .emphasis span style children => .emphasis span.reduced style (children.map Inline.reduced)
  | .lineBreak span => .lineBreak span.reduced
  | .media span kind url => .media span.reduced kind url

/-- Nodes with their spans reduced. -/
def Node.reducedAll : List Node → List Node
  | [] => []
  | node :: rest => node.reduced :: Node.reducedAll rest

end

/-- A document with its spans reduced. -/
def Document.reduced (document : Document) : Document :=
  ⟨document.span.reduced, Node.reducedAll document.children⟩

/-! ## The outline shows no more -/

/-- What an outline shows of a span does not change when the span is reduced. -/
theorem Outline.object_reduced (kind : String) (span : Span) (members : List (String × Json)) :
    object kind span.reduced members = object kind span members := rfl

/-- The outline of a piece does not change when its span is reduced. -/
theorem Inline.outline_reduced (piece : Inline) : piece.reduced.outline = piece.outline := by
  cases piece <;> rfl

/-- The outline of an item does not change when its spans are reduced. -/
theorem Item.outline_reduced (item : Item) : item.reduced.outline = item.outline := by
  rw [Item.outline, Item.reduced, Outline.object_reduced, List.map_map, Item.outline]
  simp only [Function.comp_def, Inline.outline_reduced]

mutual

/-- The outline of a node does not change when its spans are reduced. -/
theorem Node.outline_reduced (node : Node) : node.reduced.outline = node.outline := by
  cases node with
  | head span titles =>
      rw [Node.reduced, Node.outline, Outline.object_reduced, List.map_map, Node.outline]
      rfl
  | paragraf span children =>
      rw [Node.reduced, Node.outline, Outline.object_reduced, Node.outlines_reducedAll,
        Node.outline]
  | list span items =>
      rw [Node.reduced, Node.outline, Outline.object_reduced, List.map_map, Node.outline]
      simp only [Function.comp_def, Item.outline_reduced]
  | assignment span name value => cases name <;> rfl
  | inline piece => exact piece.outline_reduced
  | emphasis span style children =>
      rw [Node.reduced, Node.outline, Outline.object_reduced, List.map_map, Node.outline]
      simp only [Function.comp_def, Inline.outline_reduced]
  | declaration | lineBreak | media => rfl

/-- The outlines of nodes do not change when their spans are reduced. -/
theorem Node.outlines_reducedAll (nodes : List Node) :
    Node.outlines (Node.reducedAll nodes) = Node.outlines nodes := by
  cases nodes with
  | nil => rfl
  | cons node rest =>
      rw [Node.reducedAll, Node.outlines, Node.outline_reduced, Node.outlines_reducedAll,
        Node.outlines]

end

/-- The outline of a document depends on the reduced document only. -/
theorem Document.outline_reduced (document : Document) :
    document.reduced.outline = document.outline := by
  rw [Document.outline, Document.reduced, Outline.object_reduced, Node.outlines_reducedAll,
    Document.outline]

/-! ## The outline shows all of it -/

/-- An object of an outline shows its kind, where it starts and its members. -/
theorem Outline.object_inj {kind other : String} {span place : Span}
    {members others : List (String × Json)} :
    object kind span members = object other place others ↔
      kind = other ∧ span.reduced = place.reduced ∧ members = others := by
  simp [object, Span.reduced, and_assoc]

/-- An object with children shows its kind, where it starts and the children. -/
theorem Outline.object_children_inj {kind other : String} {span place : Span}
    {children others : List Json} :
    object kind span [("children", .array children)] =
        object other place [("children", .array others)] ↔
      kind = other ∧ span.reduced = place.reduced ∧ children = others := by
  simp [object_inj]

/-- Lists with the same image under one function have the same image under another, if elements
have. -/
theorem map_eq_map_of {α β γ : Type} {f : α → β} {g : α → γ} (h : ∀ a b, f a = f b → g a = g b)
    {as bs : List α} (hmap : as.map f = bs.map f) : as.map g = bs.map g := by
  induction as generalizing bs with
  | nil =>
      rw [List.map_nil, eq_comm, List.map_eq_nil_iff] at hmap
      rw [hmap]
  | cons a as ih =>
      obtain ⟨b, rest, rfl, hb, hrest⟩ := List.map_eq_cons_iff.mp hmap.symm
      rw [List.map_cons, List.map_cons, h a b hb.symm, ih hrest.symm]

/-- Pieces with the same outline are the same when their spans are reduced. -/
theorem Inline.reduced_eq_of_outline {piece other : Inline} (h : piece.outline = other.outline) :
    piece.reduced = other.reduced := by
  cases piece <;> cases other <;> simp_all [Inline.outline, Inline.reduced, Outline.object_inj]

/-- Titles with the same outline are the same when their spans are reduced. -/
theorem Title.reduced_eq_of_outline {title other : Title} (h : title.outline = other.outline) :
    title.reduced = other.reduced := by
  simp_all [Title.outline, Title.reduced, Outline.object_inj]

/-- Items with the same outline are the same when their spans are reduced. -/
theorem Item.reduced_eq_of_outline {item other : Item} (h : item.outline = other.outline) :
    item.reduced = other.reduced := by
  obtain ⟨-, hspan, hchildren⟩ := Outline.object_children_inj.mp h
  rw [Item.reduced, Item.reduced, hspan,
    map_eq_map_of (fun _ _ => Inline.reduced_eq_of_outline) hchildren]

namespace Outline

/-- The kinds of nodes in an outline. A piece of a run is a text or a reference. -/
inductive Kind where
  | head
  | paragraf
  | list
  | declaration
  | assignment
  | inline (refers : Bool)
  | emphasis (style : Emphasis)
  | lineBreak
  | media (kind : Media)
deriving DecidableEq

namespace Kind

/-- The name of a kind. -/
def name : Kind → String
  | head => "HeadSection"
  | paragraf => "ParagrafSection"
  | list => "ListSection"
  | declaration => "VariableDeclaration"
  | assignment => "VariableAssignment"
  | inline false => "Text"
  | inline true => "VariableReference"
  | emphasis style => style.kindName
  | lineBreak => "Newline"
  | media kind => kind.kindName

/-- All kinds. -/
def all : List Kind :=
  [head, paragraf, list, declaration, assignment, inline false, inline true, emphasis .bold,
    emphasis .italics, lineBreak, media .sound, media .video]

/-- There are no kinds but the listed ones. -/
theorem mem_all (kind : Kind) : kind ∈ all := by
  cases kind with
  | inline refers => cases refers <;> decide
  | emphasis style => cases style <;> decide
  | media kind => cases kind <;> decide
  | _ => decide

/-- No two kinds have the same name. -/
theorem name_inj {kind other : Kind} (h : kind.name = other.name) : kind = other := by
  have hall : ∀ kind ∈ all, ∀ other ∈ all, kind.name = other.name → kind = other := by decide
  exact hall kind (mem_all kind) other (mem_all other) h

end Kind

end Outline

/-- Whether a piece of a run is a reference. -/
def Inline.refers : Inline → Bool
  | text _ _ => false
  | reference _ _ => true

/-- The kind of a node. -/
def Node.kind : Node → Outline.Kind
  | .head _ _ => .head
  | .paragraf _ _ => .paragraf
  | .list _ _ => .list
  | .declaration _ _ => .declaration
  | .assignment _ _ _ => .assignment
  | .inline piece => .inline piece.refers
  | .emphasis _ style _ => .emphasis style
  | .lineBreak _ => .lineBreak
  | .media _ kind _ => .media kind

/-- The outline of a node is an object that names its kind. -/
theorem Node.exists_outline_eq (node : Node) :
    ∃ span members, node.outline = Outline.object node.kind.name span members := by
  cases node with
  | assignment span name value => cases name <;> exact ⟨span, _, rfl⟩
  | inline piece => cases piece <;> exact ⟨_, _, rfl⟩
  | _ => exact ⟨_, _, rfl⟩

/-- Nodes with the same outline are of the same kind. -/
theorem Node.kind_eq_of_outline {node other : Node} (h : node.outline = other.outline) :
    node.kind = other.kind := by
  obtain ⟨_, _, hnode⟩ := node.exists_outline_eq
  obtain ⟨_, _, hother⟩ := other.exists_outline_eq
  rw [hnode, hother, Outline.object_inj] at h
  exact Outline.Kind.name_inj h.1

mutual

/-- Nodes with the same outline are the same when their spans are reduced. -/
theorem Node.reduced_eq_of_outline (node other : Node) (h : node.outline = other.outline) :
    node.reduced = other.reduced := by
  have hkind := Node.kind_eq_of_outline h
  cases node with
  | head span titles =>
      cases other with
      | head place others =>
          rw [Node.outline, Node.outline] at h
          obtain ⟨-, hspan, hchildren⟩ := Outline.object_children_inj.mp h
          rw [Node.reduced, Node.reduced, hspan,
            map_eq_map_of (fun _ _ => Title.reduced_eq_of_outline) hchildren]
      | _ => cases hkind
  | paragraf span children =>
      cases other with
      | paragraf place others =>
          rw [Node.outline, Node.outline] at h
          obtain ⟨-, hspan, hchildren⟩ := Outline.object_children_inj.mp h
          rw [Node.reduced, Node.reduced, hspan,
            Node.reducedAll_eq_of_outlines children others hchildren]
      | _ => cases hkind
  | list span items =>
      cases other with
      | list place others =>
          rw [Node.outline, Node.outline] at h
          obtain ⟨-, hspan, hchildren⟩ := Outline.object_children_inj.mp h
          rw [Node.reduced, Node.reduced, hspan,
            map_eq_map_of (fun _ _ => Item.reduced_eq_of_outline) hchildren]
      | _ => cases hkind
  | declaration span name =>
      cases other with
      | declaration place target =>
          simp_all [Node.outline, Node.reduced, Outline.object_inj]
      | _ => cases hkind
  | assignment span name value =>
      cases other with
      | assignment place target held =>
          -- An assignment with a name has one member more than one without.
          cases name <;> cases target <;>
            simp_all [Node.outline, Node.reduced, Outline.object_inj]
      | _ => cases hkind
  | inline piece =>
      cases other with
      | inline other =>
          rw [Node.reduced, Node.reduced, Inline.reduced_eq_of_outline h]
      | _ => cases hkind
  | emphasis span style children =>
      cases other with
      | emphasis place form others =>
          cases hkind
          rw [Node.outline, Node.outline] at h
          obtain ⟨-, hspan, hchildren⟩ := Outline.object_children_inj.mp h
          rw [Node.reduced, Node.reduced, hspan,
            map_eq_map_of (fun _ _ => Inline.reduced_eq_of_outline) hchildren]
      | _ => cases hkind
  | lineBreak span =>
      cases other with
      | lineBreak place => simp_all [Node.outline, Node.reduced, Outline.object_inj]
      | _ => cases hkind
  | media span kind url =>
      cases other with
      | media place form address =>
          cases hkind
          simp_all [Node.outline, Node.reduced, Outline.object_inj]
      | _ => cases hkind

/-- Lists of nodes with the same outlines are the same when their spans are reduced. -/
theorem Node.reducedAll_eq_of_outlines (nodes others : List Node)
    (h : Node.outlines nodes = Node.outlines others) :
    Node.reducedAll nodes = Node.reducedAll others := by
  cases nodes with
  | nil =>
      cases others with
      | nil => rfl
      | cons other others => cases h
  | cons node rest =>
      cases others with
      | nil => cases h
      | cons other others =>
          rw [Node.outlines, Node.outlines, List.cons.injEq] at h
          rw [Node.reducedAll, Node.reducedAll, Node.reduced_eq_of_outline node other h.1,
            Node.reducedAll_eq_of_outlines rest others h.2]

end

/-- The outline of a document determines the reduced document. -/
theorem Document.reduced_eq_of_outline {document other : Document}
    (h : document.outline = other.outline) : document.reduced = other.reduced := by
  obtain ⟨-, hspan, hchildren⟩ := Outline.object_children_inj.mp h
  rw [Document.reduced, Document.reduced, hspan, Node.reducedAll_eq_of_outlines _ _ hchildren]

/-! ## Files -/

/-- Two outlines are the same file only if they are the same value. -/
theorem Artifact.fileText_outline_inj {record other : Json}
    (h : (Artifact.outline record).fileText = (Artifact.outline other).fileText) :
    record = other := by
  have hchars := congrArg String.toList h
  rw [fileText, fileText, String.toList_append, String.toList_append] at hchars
  have hend : Follows "\n".toList := fun c hc => .inr (Option.some.inj hc).symm
  exact (Json.readsUniquely 0 record other _ _ hend hend hchars).1

/-- A record shows the file and the outline. -/
theorem Document.record_inj_iff {document other : Document} {file path : String} :
    document.record file = other.record path ↔
      file = path ∧ document.outline = other.outline := by
  simp [Document.record]

/-- The files of two outlines are the same if and only if they record the same path and the
documents are the same up to spans, of which only the line and the column of the start count: they
have the same tree of constructs, of the same kinds and in the same order, with the same names,
values, contents and URLs, and an assignment has a name in both or in neither. -/
theorem fileText_outline_eq_iff (here : Path) (root : Option String) (document other : Document) :
    ((Draft.outline document root).write here).fileText =
        ((Draft.outline other root).write here).fileText ↔
      Draft.recordedFile here document.span.file root =
          Draft.recordedFile here other.span.file root ∧
        document.reduced = other.reduced := by
  constructor
  · intro h
    obtain ⟨hfile, houtline⟩ := Document.record_inj_iff.mp (Artifact.fileText_outline_inj h)
    exact ⟨hfile, Document.reduced_eq_of_outline houtline⟩
  · rintro ⟨hfile, hreduced⟩
    have houtline : document.outline = other.outline := by
      rw [← document.outline_reduced, hreduced, other.outline_reduced]
    rw [Draft.write, Draft.write, Document.record_inj_iff.mpr ⟨hfile, houtline⟩]

end LolMarkup
