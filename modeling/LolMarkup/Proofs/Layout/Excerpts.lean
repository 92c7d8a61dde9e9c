import LolMarkup.Proofs.Image.Soundness
import LolMarkup.Proofs.Layout.Lines
import LolMarkup.Proofs.Reading.Locality

/-!
# Excerpts

The text of a node says what the node says when it stands alone. The tokens of a node come from
segments that lie end to end (`Scan.exists_segments`), which are cut in the same way in any text
where a line feed or nothing follows them (`Source.exists_excerpt`). So a node other than an
assignment is the only node of the document that is written as its text alone
(`excerpt_reads_alone`). The names of assignments are those that are declared in the text.
-/

namespace LolMarkup

open Lexing Reader

/-! ## The text of a span -/

/-- The text of a source between the ends of a span. -/
def Source.excerpt (source : Source) (span : Span) : String :=
  String.ofList (Text.slice span.start.offset span.stop.offset source.text.toList)

namespace Scan

/-- The segments up to the last of some tokens. -/
theorem split_after {position : Position} {segments : List Segment} {tokens late : List Token}
    {last : Token} (h : placed position segments = tokens ++ last :: late) :
    ∃ front back, segments = front ++ back ∧ placed position front = tokens ++ [last] ∧
      endPosition position front = last.stop := by
  induction segments generalizing position tokens with
  | nil => simp [placed] at h
  | cons segment segments ih =>
      rw [placed_cons] at h
      cases hlexeme : segment.lexeme with
      | none =>
          rw [hlexeme] at h
          obtain ⟨front, back, rfl, hplaced, hstop⟩ := ih h
          refine ⟨segment :: front, back, rfl, ?_, hstop⟩
          rw [placed_cons, hlexeme, hplaced]
          rfl
      | some lexeme =>
          rw [hlexeme] at h
          cases tokens with
          | nil =>
              obtain ⟨rfl, -⟩ := List.cons.inj h
              refine ⟨[segment], segments, rfl, ?_, rfl⟩
              rw [placed_cons, hlexeme]
              rfl
          | cons first tokens =>
              obtain ⟨rfl, hrest⟩ := List.cons.inj h
              obtain ⟨front, back, rfl, hplaced, hstop⟩ := ih hrest
              refine ⟨segment :: front, back, rfl, ?_, hstop⟩
              rw [placed_cons, hlexeme, hplaced]
              rfl

/-- Tokens that stand together come from segments that lie end to end. -/
theorem exists_segments {position : Position} {segments : List Segment}
    {early tokens late : List Token} {first last : Token}
    (h : placed position segments = early ++ tokens ++ late)
    (hfirst : tokens.head? = some first) (hlast : tokens.getLast? = some last) :
    ∃ front middle back, segments = front ++ (middle ++ back) ∧
      placed first.start middle = tokens ∧ endPosition position front = first.start ∧
      endPosition first.start middle = last.stop := by
  obtain ⟨others, rfl⟩ := List.head?_eq_some_iff.mp hfirst
  obtain ⟨earlier, hsplit⟩ := List.getLast?_eq_some_iff.mp hlast
  have hstream : (ofSegmentation position ⟨segments, none⟩).stream =
      early ++ first :: (others ++ late ++ [.atEnd (endPosition position segments)]) := by
    show placed position segments ++ _ = _
    rw [h]
    simp [ofSegmentation, Ending.stream]
  obtain ⟨front, rest, rfl, hfront, hstart⟩ := split_segments hstream
  rw [placed_append, hfront, List.append_assoc, List.append_cancel_left_eq, hsplit,
    List.append_assoc, ← hstart] at h
  obtain ⟨middle, back, rfl, hmiddle, hstop⟩ := split_after h
  exact ⟨front, middle, back, rfl, by rw [hmiddle, hsplit], hstart.symm, hstop⟩

end Scan

/-- The text of a node says the same alone as in the source, whatever ends it. -/
theorem Source.exists_excerpt {source : Source} {document : Document}
    (h : source.document = .ok document) {node : Node}
    (hnode : node ∈ Node.preorderAll document.children) :
    ∃ tokens, Excerpt source.path tokens node ∧ ∀ after, EndsRuns after →
      (Segmentation.ofChars ((source.excerpt node.span).toList ++ after)).content =
        (tokens.map Token.lexeme ++ (Segmentation.ofChars after).content.1,
          (Segmentation.ofChars after).content.2) := by
  obtain ⟨early, tokens, late, htokens, hexcerpt⟩ := Source.held_of_document h node hnode
  obtain ⟨first, last, hfirst, hlast, hspan, -⟩ := hexcerpt.bounds
  obtain ⟨front, middle, back, hsegments, hmiddle, hstart, hstop⟩ :=
    Scan.exists_segments htokens hfirst hlast
  have hfault := ((document_ok_iff_run source).mp ⟨document, h⟩).1
  have hcut : Segmentation.ofChars source.text.toList = ⟨front ++ (middle ++ back), none⟩ := by
    rw [← hsegments, ← hfault]
  obtain ⟨rest, htext, hrest⟩ := Segmentation.flatMap_chars_ofChars hcut
  obtain ⟨more, hmore, -⟩ := Segmentation.flatMap_chars_ofChars hrest
  have hslice : (source.excerpt node.span).toList = middle.flatMap Segment.chars := by
    rw [excerpt, String.toList_ofList, hspan]
    rw [← hstart, Scan.endPosition_eq] at hstop
    rw [Scan.endPosition_eq] at hstart hstop
    refine Text.slice_eq (front.flatMap Segment.chars) _ more ?_ ?_ ?_
    · rw [htext, hmore, List.append_assoc]
    · rw [← hstart]
      exact offset_reached _
    · rw [← hstop, ← Position.after_append]
      exact offset_reached _
  refine ⟨tokens, hexcerpt, fun after hafter => ?_⟩
  rw [hslice, Segmentation.ofChars_resume hrest hafter, Segmentation.content_prepend, ← hmiddle,
    Scan.map_lexeme_placed]

/-! ## Reading an excerpt -/

namespace Reader

/-- Where tokens lead to, their lexemes lead to without positions. -/
theorem State.run?_of_follow? {file : String} {state next : State} {tokens : List Token}
    (h : state.follow? file tokens = some next) :
    state.bare.run? (tokens.map Token.lexeme) = some next.bare := by
  induction tokens generalizing state with
  | nil =>
      cases h
      rfl
  | cons token tokens ih =>
      rw [follow?, List.foldlM_cons] at h
      obtain ⟨middle, hmiddle, hrest⟩ := Option.bind_eq_some_iff.mp h
      rw [List.map_cons, run?_cons, ← state.bare_next? file token, hmiddle]
      exact ih hrest

/-- There are no spans to remove from the first state inside a document. -/
theorem State.bare_fresh : (State.inside .fresh).bare = .inside .fresh := by
  simp [bare, Inside.bare, Block.bare, Inside.fresh, Focus.bare]

/-- Without spans a state with one node has this node without spans. -/
theorem State.bare_alone (pending : Option String) (opened : Position) (node : Node)
    (declared : Bool) :
    (State.inside ⟨pending, ⟨opened, #[node]⟩, [], .content declared⟩).bare =
      .inside ⟨pending, ⟨.origin, #[node.bare]⟩, [], .content declared⟩ := by
  simp [bare, Inside.bare, Block.bare, Focus.bare]

/-- Only an assignment tells a fresh document from one that has just begun. -/
theorem Inside.step?_fresh {lexeme : Lexeme} (hword : lexeme ≠ .hashWord .itIz)
    (hline : lexeme ≠ .newline) :
    (State.inside Inside.fresh).step? lexeme =
      (State.inside ⟨none, ⟨.origin, #[]⟩, [], .content false⟩).step? lexeme := by
  cases lexeme with
  | hashWord word => cases word <;> first | rfl | exact absurd rfl hword
  | newline => exact absurd rfl hline
  | _ => rfl

/-- The lexemes of a node other than an assignment lead to it alone in a document. -/
theorem State.run?_alone {file : String} {tokens : List Token} {first : Token}
    {pending : Option String} {opened : Position} {node : Node} {declared : Bool}
    (hfollow : (State.inside .fresh).follow? file tokens =
      some (.inside ⟨pending, ⟨opened, #[node]⟩, [], .content declared⟩))
    (hfirst : tokens.head? = some first) (hword : first.lexeme ≠ .hashWord .itIz)
    (hline : first.lexeme ≠ .newline) :
    State.before.run? (.hashWord .hai :: .newline ::
      (tokens.map Token.lexeme ++ [.newline, .hashWord .kthxbye])) =
        some (.after ⟨.blank, [node.bare]⟩) := by
  obtain ⟨others, rfl⟩ := List.head?_eq_some_iff.mp hfirst
  have hrun := State.run?_of_follow? hfollow
  rw [bare_fresh, bare_alone, List.map_cons, run?_cons, Inside.step?_fresh hword hline, ← run?_cons,
    ← List.map_cons] at hrun
  have hstart : State.before.run? [.hashWord .hai, .newline] =
      some (.inside ⟨none, ⟨.origin, #[]⟩, [], .content false⟩) := rfl
  have hsplit (lexemes : List Lexeme) : .hashWord .hai :: .newline :: lexemes =
      [.hashWord .hai, .newline] ++ lexemes := rfl
  rw [hsplit, run?_append, hstart, Option.bind_some, run?_append, hrun]
  rfl

end Reader

/-- A text between the first and the last word of a document says there what it says alone. -/
theorem Segmentation.content_document {text : String} {lexemes : List Lexeme}
    (h : ∀ after, EndsRuns after → (ofChars (text.toList ++ after)).content =
      (lexemes ++ (ofChars after).content.1, (ofChars after).content.2)) :
    (ofChars ("#HAI\n" ++ text ++ "\n#KTHXBYE").toList).content =
      (.hashWord .hai :: .newline :: (lexemes ++ [.newline, .hashWord .kthxbye]), none) := by
  have hword : ofChars "#HAI".toList = ⟨[⟨"#HAI".toList, some (.hashWord .hai)⟩] ++ [], none⟩ := rfl
  have hlast : (ofChars "\n#KTHXBYE".toList).content =
      ([.newline, .hashWord .kthxbye], none) := rfl
  have htext : ("#HAI\n" ++ text ++ "\n#KTHXBYE").toList =
      "#HAI".toList ++ '\n' :: (text.toList ++ "\n#KTHXBYE".toList) := by
    rw [String.toList_append, String.toList_append, List.append_assoc]
    rfl
  have hresume := ofChars_resume hword (endsRuns_newline (text.toList ++ "\n#KTHXBYE".toList))
  rw [List.flatMap_singleton, ← htext] at hresume
  rw [hresume, content_prepend, content_newline, h "\n#KTHXBYE".toList (endsRuns_newline _), hlast]
  rfl

/-- A text is read as the document that its lexemes are read as, up to spans. -/
theorem Source.exists_of_content {path text : String} {lexemes : List Lexeme} {bare : Document}
    (hcontent : (Segmentation.ofChars text.toList).content = (lexemes, none))
    (hrun : State.before.run? lexemes = some (.after bare)) :
    ∃ document, (Source.mk path text).document = .ok document ∧ document.bare = bare := by
  obtain ⟨rfl, hfault⟩ := Prod.ext_iff.mp hcontent
  exact (Source.exists_bare_iff ⟨path, text⟩ bare hfault).mpr hrun

/-- The first lexeme of a node other than an assignment. -/
theorem Node.ne_of_starts {node : Node} {lexeme : Lexeme}
    (hkind : ∀ span name value, node ≠ .assignment span name value)
    (h : node.part.frame.Starts lexeme) : lexeme ≠ .hashWord .itIz ∧ lexeme ≠ .newline := by
  cases node with
  | assignment span name value => exact absurd rfl (hkind span name value)
  | inline piece =>
      cases piece with
      | text span content =>
          obtain ⟨said, hsaid⟩ := h
          constructor <;> rintro rfl <;> cases hsaid
      | reference span name =>
          cases h
          decide
  | _ =>
      cases h
      decide

/-! ## The names in an excerpt -/

/-- A mark without the name that an assignment has. -/
def Mark.unnamed : Mark → Mark
  | declares name => declares name
  | assigns _ => assigns none

/-- Marks as they are where no name waits for a value before them: an assignment that is the first
of them has no name. -/
def Mark.detached : List Mark → List Mark
  | assigns _ :: rest => assigns none :: rest
  | marks => marks

/-- Without names, a node has its mark without the name. -/
theorem Node.mark?_unnamed (node : Node) : node.unnamed.mark? = node.mark?.map Mark.unnamed := by
  cases node <;> rfl

mutual

/-- Without names, the nodes in a node are those of it without names. -/
theorem Node.preorder_unnamed (node : Node) :
    node.unnamed.preorder = node.preorder.map Node.unnamed := by
  cases node with
  | paragraf span children =>
      rw [Node.unnamed, Node.preorder, Node.preorder, List.map_cons, Node.unnamed,
        Node.preorderAll_unnamedAll children]
  | _ => rfl

/-- Without names, the nodes in some nodes are those of them without names. -/
theorem Node.preorderAll_unnamedAll (nodes : List Node) :
    Node.preorderAll (Node.unnamedAll nodes) = (Node.preorderAll nodes).map Node.unnamed := by
  cases nodes with
  | nil => rfl
  | cons node rest =>
      rw [Node.unnamedAll, Node.preorderAll, Node.preorderAll, List.map_append,
        node.preorder_unnamed, Node.preorderAll_unnamedAll rest]

end

/-- Erasing the names of the assignments in nodes erases the names of their marks. -/
theorem Node.marks_unnamedAll (nodes : List Node) :
    Node.marks (Node.unnamedAll nodes) = (Node.marks nodes).map Mark.unnamed := by
  rw [Node.marks, Node.preorderAll_unnamedAll, List.filterMap_map, Node.marks, List.map_filterMap]
  exact List.filterMap_congr fun node _ => node.mark?_unnamed

/-- Without spans and names, a node has its marks without names. -/
theorem Node.marks_bare_unnamed (node : Node) :
    Node.marks [node.bare.unnamed] = (Node.marks [node]).map Mark.unnamed := by
  have hbare : Node.marks [node.bare] = Node.marks [node] := Node.marks_bareAll [node]
  rw [← hbare]
  exact Node.marks_unnamedAll [node.bare]

namespace Mark

/-- The name that waits after a mark does not depend on the name of the mark. -/
theorem waiting_concat {first second : Mark} (h : first.unnamed = second.unnamed)
    (before other : List Mark) : waiting (before ++ [first]) = waiting (other ++ [second]) := by
  cases first <;> cases second <;> simp_all [unnamed]

/-- Marks that are the same up to names are the same where the same name waits before them. -/
theorem eq_of_named {before other rest more back : List Mark}
    (h : Named (before ++ (rest ++ back))) (hother : Named (other ++ more))
    (hwaiting : waiting before = waiting other)
    (hrest : rest.map unnamed = more.map unnamed) : rest = more := by
  induction rest generalizing before other more with
  | nil => exact (List.map_eq_nil_iff.mp hrest.symm).symm
  | cons mark rest ih =>
      cases more with
      | nil => cases hrest
      | cons next more =>
          obtain ⟨hmark, hmore⟩ := List.cons.inj hrest
          obtain rfl : mark = next := by
            cases mark with
            | declares name => cases next <;> simp_all [unnamed]
            | assigns name =>
                cases next with
                | declares => cases hmark
                | assigns later =>
                    rw [h before name (rest ++ back) rfl, hother other later more rfl, hwaiting]
          rw [List.cons_append, List.append_cons] at h
          rw [List.append_cons] at hother
          rw [ih h hother (waiting_concat rfl before other) hmore]

/-- Marks that stand alone have the names that they have among others, except that the name of the
first may come from the marks before it. -/
theorem eq_detached_of_named {front marks back alone : List Mark}
    (h : Named (front ++ (marks ++ back))) (halone : Named alone)
    (hsame : alone.map unnamed = marks.map unnamed) : alone = detached marks := by
  cases marks with
  | nil => exact List.map_eq_nil_iff.mp hsame
  | cons mark marks =>
      cases alone with
      | nil => cases hsame
      | cons first alone =>
          obtain ⟨hfirst, hrest⟩ := List.cons.inj hsame
          rw [List.cons_append, List.append_cons] at h
          have hmarks := eq_of_named h halone (waiting_concat hfirst.symm front []) hrest.symm
          cases mark with
          | declares name =>
              cases first with
              | assigns => cases hfirst
              | declares =>
                  cases hfirst
                  rw [hmarks]
                  rfl
          | assigns name =>
              cases first with
              | declares => cases hfirst
              | assigns later =>
                  rw [halone [] later alone rfl, hmarks]
                  rfl

end Mark

mutual

/-- The nodes in a node of a tree stand one after another in the tree. -/
theorem Node.infix_preorder {node target : Node} (h : target ∈ node.preorder) :
    target.preorder <:+: node.preorder := by
  cases node with
  | paragraf span children =>
      rw [Node.preorder, List.mem_cons] at h
      rcases h with rfl | h
      · exact List.infix_rfl
      · exact (Node.infix_preorderAll h).trans (List.infix_cons List.infix_rfl)
  | _ =>
      obtain rfl := List.mem_singleton.mp h
      exact List.infix_rfl

/-- A node and the nodes within it stand together among all nodes. -/
theorem Node.infix_preorderAll {nodes : List Node} {target : Node}
    (h : target ∈ Node.preorderAll nodes) : target.preorder <:+: Node.preorderAll nodes := by
  cases nodes with
  | nil => cases h
  | cons node rest =>
      rw [Node.preorderAll, List.mem_append] at h
      rcases h with h | h
      · exact (Node.infix_preorder h).trans (List.prefix_append _ _).isInfix
      · exact (Node.infix_preorderAll h).trans (List.suffix_append _ _).isInfix

end

/-- The marks of a node stand one after another in those of the nodes around it. -/
theorem Node.infix_marks {nodes : List Node} {node : Node} (h : node ∈ Node.preorderAll nodes) :
    Node.marks [node] <:+: Node.marks nodes := by
  rw [Node.marks, Node.preorderAll, Node.preorderAll, List.append_nil]
  exact (Node.infix_preorderAll h).filterMap Node.mark?

/-- A node of a document or of one of its paragrafs, other than an assignment, is the only node of
the document that is written as the text of the node alone. It is the same up to spans and up to
names of assignments. The names are the same too, except that an assignment has none if no
declaration or assignment stands before it in the text of the node. -/
theorem excerpt_reads_alone {source : Source} {document : Document}
    (h : source.document = .ok document) {node : Node}
    (hnode : node ∈ Node.preorderAll document.children)
    (hkind : ∀ span name value, node ≠ .assignment span name value) (path : String) :
    ∃ excerpt child,
      (Source.mk path ("#HAI\n" ++ source.excerpt node.span ++ "\n#KTHXBYE")).document =
        .ok excerpt ∧ excerpt.children = [child] ∧ child.bare.unnamed = node.bare.unnamed ∧
      Node.marks [child] = Mark.detached (Node.marks [node]) := by
  obtain ⟨tokens, hexcerpt, hcontent⟩ := Source.exists_excerpt h hnode
  obtain ⟨pending, opened, alone, declared, hfollow, halone⟩ := hexcerpt.reads
  obtain ⟨first, last, hfirst, -, -, hstarts⟩ := hexcerpt.bounds
  obtain ⟨hword, hline⟩ := Node.ne_of_starts hkind hstarts
  -- The text alone is read to the node that its tokens lead to.
  have hread : ∃ excerpt,
      (Source.mk path ("#HAI\n" ++ source.excerpt node.span ++ "\n#KTHXBYE")).document =
        .ok excerpt ∧ excerpt.bare = ⟨.blank, [alone.bare]⟩ :=
    Source.exists_of_content (Segmentation.content_document hcontent)
      (State.run?_alone hfollow hfirst hword hline)
  obtain ⟨excerpt, hdocument, hbare⟩ := hread
  have hchildren : excerpt.children.map Node.bare = [alone.bare] := by
    rw [← Node.bareAll_eq_map]
    exact congrArg Document.children hbare
  obtain ⟨child, hchild, hsame⟩ := List.map_eq_singleton_iff.mp hchildren
  have hunnamed : child.bare.unnamed = node.bare.unnamed := by
    rw [hsame, ← Node.bare_unnamed, halone, Node.bare_unnamed]
  refine ⟨excerpt, child, hdocument, hchild, hunnamed, ?_⟩
  -- Both documents give every assignment the name that waits for a value.
  obtain ⟨front, back, hmarks⟩ := Node.infix_marks hnode
  have hnamed := (Source.wellMade_of_document h).named
  have hnamedAlone := (Source.wellMade_of_document hdocument).named
  rw [← hmarks, List.append_assoc] at hnamed
  rw [hchild] at hnamedAlone
  refine Mark.eq_detached_of_named hnamed hnamedAlone ?_
  rw [← Node.marks_bare_unnamed, ← Node.marks_bare_unnamed, hunnamed]

/-- The declaration of an assignment in a paragraf stands before the paragraf. -/
theorem excerpt_reads_alone_paragraf :
    ∃ document span children,
      (Source.mk "doc.lol" "#HAI #I HAZ x #MAEK PARAGRAF #IT IZ 1 #MKAY é #OIC #KTHXBYE").document =
        .ok document ∧
      .paragraf span children ∈ Node.preorderAll document.children ∧
      Node.marks children = [.assigns (some "x")] ∧
      ∃ excerpt child,
        (Source.mk "doc.lol" "#HAI\n#MAEK PARAGRAF #IT IZ 1 #MKAY é #OIC\n#KTHXBYE").document =
          .ok excerpt ∧ excerpt.children = [child] ∧
        child.bare.unnamed = Node.bare (.paragraf span (Node.unnamedAll children)) ∧
        Node.marks [child] = [.assigns none] := by
  have hdocument :
      (Source.mk "doc.lol" "#HAI #I HAZ x #MAEK PARAGRAF #IT IZ 1 #MKAY é #OIC #KTHXBYE").document =
        .ok ⟨⟨"doc.lol", ⟨1, 1, 0⟩, ⟨1, 60, 59⟩⟩,
          [.declaration ⟨"doc.lol", ⟨1, 6, 5⟩, ⟨1, 14, 13⟩⟩ "x",
            .paragraf ⟨"doc.lol", ⟨1, 15, 14⟩, ⟨1, 51, 50⟩⟩
              [.assignment ⟨"doc.lol", ⟨1, 30, 29⟩, ⟨1, 44, 43⟩⟩ (some "x") "1",
                .inline (.text ⟨"doc.lol", ⟨1, 45, 44⟩, ⟨1, 47, 46⟩⟩ "é")]]⟩ := by
    cbv
  have htext : "#HAI\n" ++ Source.excerpt
      ⟨"doc.lol", "#HAI #I HAZ x #MAEK PARAGRAF #IT IZ 1 #MKAY é #OIC #KTHXBYE"⟩
      ⟨"doc.lol", ⟨1, 15, 14⟩, ⟨1, 51, 50⟩⟩ ++ "\n#KTHXBYE" =
        "#HAI\n#MAEK PARAGRAF #IT IZ 1 #MKAY é #OIC\n#KTHXBYE" := by
    cbv
  obtain ⟨excerpt, child, hread, hchild, hsame, hmarks⟩ := excerpt_reads_alone hdocument
    (.tail _ (.head _)) (by simp) "doc.lol"
  rw [Node.span, htext] at hread
  exact ⟨_, _, _, hdocument, .tail _ (.head _), rfl, excerpt, child, hread, hchild, hsame, hmarks⟩

end LolMarkup
