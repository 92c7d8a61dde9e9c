import LolMarkup.Proofs.Reading.Bare

/-!
# Well-made documents

What distinguishes the documents that a text is read to. `Node.Shaped` concerns the texts and names
in a node, `Node.Paired` the assignments between the nodes of the document itself, and `Mark.Named`
the names of all assignments: a `Mark` is a declaration or an assignment, and the marks of a
document stand in the order of the document. `Document.WellMade` joins the three. It does not look
at spans (`Document.wellMade_bare`).
-/

namespace LolMarkup

open Lexing

/-! ## Texts and names -/

/-- Any number of pieces with a separator between them. -/
def Joined (piece : String → Prop) (separator content : String) : Prop :=
  ∃ pieces : List String, (∀ s ∈ pieces, piece s) ∧ content = separator.intercalate pieces

/-- A text is one of the given ones, a referenced name is a name. -/
def Inline.Shaped (text : String → Prop) : Inline → Prop
  | .text _ content => text content
  | .reference _ name => IsName name

/-- The content of a title is made of pieces with spaces between them. -/
def Title.Shaped (piece : String → Prop) (title : Title) : Prop :=
  Joined piece " " title.content

/-- The texts of an item are pieces. -/
def Item.Shaped (piece : String → Prop) (item : Item) : Prop :=
  ∀ child ∈ item.children, child.Shaped piece

mutual

/-- The texts in a node are made of pieces, and its names are names. A text that is the node itself
is one of the given ones. -/
def Node.Shaped (piece text : String → Prop) : Node → Prop
  | .head _ titles => ∀ title ∈ titles, title.Shaped piece
  | .paragraf _ children => Node.AllShaped piece children
  | .list _ items => ∀ item ∈ items, item.Shaped piece
  | .declaration _ name => IsName name
  | .assignment _ _ value => Joined piece "" value
  | .inline child => child.Shaped text
  | .emphasis _ _ children => ∀ child ∈ children, child.Shaped piece
  | .lineBreak _ => True
  | .media _ _ url => Joined piece "" url

/-- The texts in the nodes of a paragraf are made of pieces, and their names are names. -/
def Node.AllShaped (piece : String → Prop) : List Node → Prop
  | [] => True
  | node :: rest => node.Shaped piece piece ∧ Node.AllShaped piece rest

end

/-- Nodes are well shaped if each of them is. -/
theorem Node.allShaped_iff {piece : String → Prop} (nodes : List Node) :
    Node.AllShaped piece nodes ↔ ∀ node ∈ nodes, node.Shaped piece piece := by
  induction nodes with
  | nil => simp [Node.AllShaped]
  | cons node rest ih => rw [Node.AllShaped, ih, List.forall_mem_cons]

/-! ## Declarations and assignments -/

/-- A declaration of a name, or an assignment with the name that it has. -/
inductive Mark where
  | declares (name : String)
  | assigns (name : Option String)
deriving DecidableEq, Repr

/-- The mark of a node that is a declaration or an assignment. -/
def Node.mark? : Node → Option Mark
  | .declaration _ name => some (.declares name)
  | .assignment _ name _ => some (.assigns name)
  | _ => none

/-- A node that declares a name is a declaration of it. -/
theorem Node.eq_declaration_of_mark? {node : Node} {name : String}
    (h : node.mark? = some (.declares name)) : ∃ span, node = .declaration span name := by
  cases node <;> simp_all [Node.mark?]

mutual

/-- A node and the nodes within it, in the order of the document. -/
def Node.preorder : Node → List Node
  | .paragraf span children => .paragraf span children :: Node.preorderAll children
  | node => [node]

/-- Nodes that follow one another and the nodes within them, in the order of the document. -/
def Node.preorderAll : List Node → List Node
  | [] => []
  | node :: rest => node.preorder ++ Node.preorderAll rest

end

/-- The marks of nodes and of the nodes within them, in the order of the document. -/
def Node.marks (nodes : List Node) : List Mark :=
  (Node.preorderAll nodes).filterMap Node.mark?

/-- The name that waits for a value after some marks: that of the last, if it is a declaration. -/
def Mark.waiting (marks : List Mark) : Option String :=
  match marks.getLast? with
  | some (.declares name) => some name
  | _ => none

/-- Every assignment has the name that waits for a value where it stands. -/
def Mark.Named (marks : List Mark) : Prop :=
  ∀ before name after, marks = before ++ .assigns name :: after → name = Mark.waiting before

/-- Every assignment among the nodes follows a declaration among them. -/
def Node.Paired (nodes : List Node) : Prop :=
  ∀ before span name value after, nodes = before ++ .assignment span name value :: after →
    ∃ span name, before.getLast? = some (.declaration span name)

/-- The conditions on the documents that are read, if the given texts are pieces, and if the given
texts may also stand as texts between the nodes of the document. -/
structure Document.WellMade (piece text : String → Prop) (document : Document) : Prop where
  shaped : ∀ node ∈ document.children, node.Shaped piece text
  paired : Node.Paired document.children
  named : Mark.Named (Node.marks document.children)

/-! ## Lists of marks and nodes -/

/-- Nodes that follow one another are listed one after another. -/
theorem Node.preorderAll_append (first second : List Node) :
    Node.preorderAll (first ++ second) = Node.preorderAll first ++ Node.preorderAll second := by
  induction first with
  | nil => rfl
  | cons node first ih => rw [List.cons_append, preorderAll, ih, preorderAll, List.append_assoc]

/-- Nodes that follow one another have their marks one after another. -/
theorem Node.marks_append (first second : List Node) :
    Node.marks (first ++ second) = Node.marks first ++ Node.marks second := by
  rw [marks, preorderAll_append, List.filterMap_append]
  rfl

/-- A paragraf has the marks of its children. -/
@[simp] theorem Node.marks_paragraf (span : Span) (children : List Node) :
    Node.marks [.paragraf span children] = Node.marks children := by
  rw [marks, preorderAll, preorderAll, List.append_nil, preorder, List.filterMap_cons]
  rfl

/-- A declaration has its own mark. -/
@[simp] theorem Node.marks_declaration (span : Span) (name : String) :
    Node.marks [.declaration span name] = [.declares name] := rfl

/-- An assignment has its own mark. -/
@[simp] theorem Node.marks_assignment (span : Span) (name : Option String) (value : String) :
    Node.marks [.assignment span name value] = [.assigns name] := rfl

/-- After a declaration its name waits for a value. -/
@[simp] theorem Mark.waiting_declares (marks : List Mark) (name : String) :
    Mark.waiting (marks ++ [.declares name]) = some name := by
  simp [waiting]

/-- After an assignment no name waits for a value. -/
@[simp] theorem Mark.waiting_assigns (marks : List Mark) (name : Option String) :
    Mark.waiting (marks ++ [.assigns name]) = none := by
  simp [waiting]

/-- Where a list with one more element is split, the element split at is the last one or stands
before it. -/
theorem split_concat {α : Type} {elements before after : List α} {last x : α}
    (h : elements ++ [last] = before ++ x :: after) :
    (elements = before ∧ last = x ∧ after = []) ∨
      ∃ between, elements = before ++ x :: between ∧ after = between ++ [last] := by
  rcases List.eq_nil_or_concat after with rfl | ⟨between, final, rfl⟩
  · obtain ⟨rfl, hlast⟩ := List.append_inj' h rfl
    exact .inl ⟨rfl, (List.cons.inj hlast).1, rfl⟩
  · rw [List.concat_eq_append, ← List.cons_append, ← List.append_assoc] at h
    obtain ⟨rfl, hlast⟩ := List.append_inj' h rfl
    rw [List.concat_eq_append, (List.cons.inj hlast).1]
    exact .inr ⟨between, rfl, rfl⟩

/-- Without marks every assignment is named. -/
theorem Mark.named_nil : Mark.Named [] := by
  intro before name after h
  simp at h

/-- One more mark keeps the names right if it has the name that waits for a value. -/
theorem Mark.Named.concat {marks : List Mark} {mark : Mark} (h : Mark.Named marks)
    (hmark : ∀ name, mark = .assigns name → name = Mark.waiting marks) :
    Mark.Named (marks ++ [mark]) := by
  intro before name after hsplit
  rcases split_concat hsplit with ⟨rfl, rfl, -⟩ | ⟨between, hbefore, -⟩
  · exact hmark name rfl
  · exact h before name between hbefore

/-- In a front part of the marks every assignment still has the name that waits for a value. -/
theorem Mark.Named.of_append {front back : List Mark} (h : Mark.Named (front ++ back)) :
    Mark.Named front := by
  intro before name after hsplit
  exact h before name (after ++ back) (by rw [hsplit, List.append_assoc, List.cons_append])

/-- Without nodes every assignment is paired. -/
theorem Node.paired_nil : Node.Paired [] := by
  intro before span name value after h
  simp at h

/-- In a front part of the nodes every assignment still follows a declaration. -/
theorem Node.Paired.of_append {front back : List Node} (h : Node.Paired (front ++ back)) :
    Node.Paired front := by
  intro before span name value after hsplit
  exact h before span name value (after ++ back)
    (by rw [hsplit, List.append_assoc, List.cons_append])

/-- One more node keeps assignments behind declarations if it is no assignment or follows one. -/
theorem Node.Paired.concat {nodes : List Node} {node : Node} (h : Node.Paired nodes)
    (hnode : ∀ span name value, node = .assignment span name value →
      ∃ span name, nodes.getLast? = some (.declaration span name)) :
    Node.Paired (nodes ++ [node]) := by
  intro before span name value after hsplit
  rcases split_concat hsplit with ⟨rfl, rfl, -⟩ | ⟨between, hbefore, -⟩
  · exact hnode span name value rfl
  · exact h before span name value between hbefore

/-! ## Spans do not count -/

/-- The shape of a piece does not depend on its span. -/
@[simp] theorem Inline.shaped_bare {text : String → Prop} (child : Inline) :
    child.bare.Shaped text ↔ child.Shaped text := by
  cases child <;> rfl

mutual

/-- The shape of a node does not depend on its spans. -/
theorem Node.shaped_bare {piece text : String → Prop} (node : Node) :
    node.bare.Shaped piece text ↔ node.Shaped piece text := by
  cases node with
  | head span titles => simp [Node.bare, Node.Shaped, Title.bare, Title.Shaped]
  | paragraf span children =>
      rw [Node.bare, Node.Shaped, Node.Shaped]
      exact Node.allShaped_bareAll children
  | list span items => simp [Node.bare, Node.Shaped, Item.bare, Item.Shaped]
  | inline child => exact child.shaped_bare
  | emphasis span style children => simp [Node.bare, Node.Shaped]
  | declaration | assignment | lineBreak | media => rfl

/-- The shape of nodes does not depend on their spans. -/
theorem Node.allShaped_bareAll {piece : String → Prop} (nodes : List Node) :
    Node.AllShaped piece (Node.bareAll nodes) ↔ Node.AllShaped piece nodes := by
  cases nodes with
  | nil => rfl
  | cons node rest =>
      rw [Node.bareAll, Node.AllShaped, Node.AllShaped, Node.shaped_bare node,
        Node.allShaped_bareAll rest]

end

mutual

/-- The marks of a node do not depend on its spans. -/
theorem Node.marks_bare (node : Node) :
    node.bare.preorder.filterMap Node.mark? = node.preorder.filterMap Node.mark? := by
  cases node with
  | paragraf span children =>
      rw [Node.bare, Node.preorder, Node.preorder, List.filterMap_cons, List.filterMap_cons]
      exact Node.marks_bareAll children
  | _ => rfl

/-- The marks of nodes do not depend on their spans. -/
theorem Node.marks_bareAll (nodes : List Node) :
    (Node.preorderAll (Node.bareAll nodes)).filterMap Node.mark? =
      (Node.preorderAll nodes).filterMap Node.mark? := by
  cases nodes with
  | nil => rfl
  | cons node rest =>
      rw [Node.bareAll, Node.preorderAll, Node.preorderAll, List.filterMap_append,
        List.filterMap_append, Node.marks_bare node, Node.marks_bareAll rest]

end

/-- A node is a declaration without its span exactly if it is one with its span. -/
theorem Node.bare_eq_declaration {node : Node} {name : String} {span : Span}
    (h : node.bare = .declaration span name) : ∃ span, node = .declaration span name := by
  cases node <;> simp_all [Node.bare]

/-- Whether assignments are paired does not depend on spans. -/
theorem Node.paired_bareAll (nodes : List Node) :
    Node.Paired (Node.bareAll nodes) ↔ Node.Paired nodes := by
  rw [Node.bareAll_eq_map]
  constructor
  · intro h before span name value after hnodes
    subst hnodes
    obtain ⟨span', name', hlast⟩ := h (before.map Node.bare) .blank name value
      (after.map Node.bare) (by simp [Node.bare])
    rw [List.getLast?_map] at hlast
    obtain ⟨last, hlast, hbare⟩ := Option.map_eq_some_iff.mp hlast
    obtain ⟨span'', rfl⟩ := Node.bare_eq_declaration hbare
    exact ⟨span'', name', hlast⟩
  · intro h before span name value after hnodes
    -- The split of the nodes without spans comes from one of the nodes themselves.
    obtain ⟨before, rest, rfl, rfl, hrest⟩ := List.map_eq_append_iff.mp hnodes
    obtain ⟨node, after, rfl, hnode, rfl⟩ := List.map_eq_cons_iff.mp hrest
    obtain ⟨span', rfl⟩ : ∃ span', node = .assignment span' name value := by
      cases node <;> simp_all [Node.bare]
    obtain ⟨span'', name', hlast⟩ := h before span' name value after rfl
    exact ⟨.blank, name', by simp [hlast, Node.bare]⟩

/-- Whether a document is well made does not depend on its spans. -/
theorem Document.wellMade_bare {piece text : String → Prop} (document : Document) :
    document.bare.WellMade piece text ↔ document.WellMade piece text := by
  have hshaped : (∀ node ∈ document.bare.children, node.Shaped piece text) ↔
      ∀ node ∈ document.children, node.Shaped piece text := by
    simp [Document.bare, Node.shaped_bare]
  have hmarks : Node.marks document.bare.children = Node.marks document.children :=
    Node.marks_bareAll document.children
  constructor
  · rintro ⟨h, hpaired, hnamed⟩
    exact ⟨hshaped.mp h, (Node.paired_bareAll _).mp hpaired, hmarks ▸ hnamed⟩
  · rintro ⟨h, hpaired, hnamed⟩
    exact ⟨hshaped.mpr h, (Node.paired_bareAll _).mpr hpaired, hmarks ▸ hnamed⟩

/-! ## Joined pieces -/

namespace Lexing

/-- A piece does not start with a blank character. -/
theorem IsPiece.head {s : String} (h : IsPiece s) {c : Char} (hc : s.toList.head? = some c) :
    Text.isBlank c = false := by
  rw [← h.trim] at hc
  exact Text.head?_trim hc

/-- A piece does not end with a blank character. -/
theorem IsPiece.last {s : String} (h : IsPiece s) {c : Char} (hc : s.toList.getLast? = some c) :
    Text.isBlank c = false := by
  rw [← h.trim] at hc
  exact Text.getLast?_trim hc

/-- Two pieces with a separator between them are a piece. -/
theorem IsPiece.between {first second separator : String} (hfirst : IsPiece first)
    (hsecond : IsPiece second) (hseparator : ∀ c ∈ separator.toList, c ≠ '#' ∧ c ≠ '\n') :
    IsPiece (first ++ (separator ++ second)) := by
  have hne : first.toList ≠ [] := by
    rw [ne_eq, String.toList_eq_nil_iff]
    exact hfirst.1
  have hne' : second.toList ≠ [] := by
    rw [ne_eq, String.toList_eq_nil_iff]
    exact hsecond.1
  refine ⟨?_, ?_, ?_⟩
  · intro hempty
    have hnil := congrArg String.toList hempty
    simp [hfirst.1] at hnil
  · rw [Text.trimmed, Text.trim_eq_self, String.ofList_toList]
    · intro c hc
      rw [String.toList_append, List.head?_append_of_ne_nil _ hne] at hc
      exact hfirst.head hc
    · intro c hc
      rw [String.toList_append, String.toList_append, ← List.append_assoc,
        List.getLast?_append_of_ne_nil _ hne'] at hc
      exact hsecond.last hc
  · intro c hc
    rw [String.toList_append, String.toList_append, List.mem_append, List.mem_append] at hc
    rcases hc with hc | hc | hc
    · exact hfirst.2.2 c hc
    · exact hseparator c hc
    · exact hsecond.2.2 c hc

/-- Joined pieces are a piece, unless there are none. -/
theorem isPiece_intercalate {separator : String}
    (hseparator : ∀ c ∈ separator.toList, c ≠ '#' ∧ c ≠ '\n') {pieces : List String}
    (h : ∀ s ∈ pieces, IsPiece s) (hne : pieces ≠ []) : IsPiece (separator.intercalate pieces) := by
  induction pieces with
  | nil => exact absurd rfl hne
  | cons first pieces ih =>
      have hfirst := h first List.mem_cons_self
      cases pieces with
      | nil => rwa [String.intercalate_singleton]
      | cons second pieces =>
          have hrest := ih (fun s hs => h s (List.mem_cons_of_mem first hs)) (List.cons_ne_nil _ _)
          rw [String.intercalate_cons_cons, String.append_assoc]
          exact hfirst.between hrest hseparator

end Lexing

end LolMarkup
