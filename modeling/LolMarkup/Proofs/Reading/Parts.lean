import LolMarkup.Proofs.Reading.Control

/-!
# The parts of a document

A `Part` is a construct of a document, whatever its kind, and `Document.part` shows a document as a
plain tree of parts. `Stack` is the same view of a state of the reader: the constructs that are
still open, each with the parts that are already closed in it. `Stack.Move` says everything that a
token can do to the stack: it is passed over, it is a text of its own, it adds to what is written in
a construct, it opens a construct or it closes one.
-/

namespace LolMarkup

namespace Text

/-- The characters of a text that are not blank. -/
def solid (s : String) : List Char :=
  s.toList.filter fun c => !isBlank c

/-- There is nothing in the empty text. -/
@[simp] theorem solid_empty : solid "" = [] := rfl

/-- What is not blank in two texts follows one another. -/
@[simp] theorem solid_append (s t : String) : solid (s ++ t) = solid s ++ solid t := by
  simp [solid]

/-- Dropping blank characters in front drops nothing that is not blank. -/
theorem filter_dropWhile_isBlank (cs : List Char) :
    (cs.dropWhile isBlank).filter (fun c => !isBlank c) = cs.filter fun c => !isBlank c := by
  induction cs with
  | nil => rfl
  | cons c cs ih =>
      rw [List.dropWhile_cons]
      split
      · next hblank => rw [ih, List.filter_cons_of_neg (by simp [hblank])]
      · rfl

/-- Trimming takes away blank characters alone. -/
@[simp] theorem solid_trimmed (s : String) : solid (trimmed s) = solid s := by
  rw [solid, trimmed, String.toList_ofList, trim, trimEnd, List.filter_reverse,
    filter_dropWhile_isBlank, List.filter_reverse, List.reverse_reverse, filter_dropWhile_isBlank,
    solid]

/-- A blank separator adds nothing but blank characters. -/
theorem solid_intercalate {separator : String} (h : solid separator = []) (parts : List String) :
    solid (separator.intercalate parts) = solid (String.join parts) := by
  induction parts with
  | nil => rfl
  | cons first rest ih =>
      cases rest with
      | nil => simp
      | cons second rest =>
          rw [String.intercalate_cons_cons, String.join_cons, solid_append, solid_append, ih, h,
            List.append_nil, solid_append]

end Text

/-! ## Parts -/

/-- How a part stands in the text: free text is one token, and any other part stands between its
first hash word and its last lexeme. -/
inductive Part.Frame where
  | text
  | words (first : HashWord) (last : Lexeme)
deriving DecidableEq, Repr

/-- A construct of a document: how it stands in the text, what is written in it outside of its
children, its span and its children. -/
structure Part where
  frame : Part.Frame
  own : String
  span : Span
  children : List Part
deriving Repr

mutual

/-- A part and the parts within it, in the order of the document. -/
def Part.preorder (part : Part) : List Part :=
  match part with
  | ⟨frame, own, span, children⟩ => ⟨frame, own, span, children⟩ :: Part.preorderAll children

/-- Parts that follow one another and the parts within them, in the order of the document. -/
def Part.preorderAll : List Part → List Part
  | [] => []
  | part :: rest => part.preorder ++ Part.preorderAll rest

end

/-- A part comes before the parts within it. -/
theorem Part.preorder_eq (part : Part) :
    part.preorder = part :: Part.preorderAll part.children := by
  cases part
  rfl

/-- Parts that follow one another are listed one after another. -/
@[simp] theorem Part.preorderAll_append (first second : List Part) :
    Part.preorderAll (first ++ second) = Part.preorderAll first ++ Part.preorderAll second := by
  induction first with
  | nil => rfl
  | cons part first ih => rw [List.cons_append, preorderAll, ih, preorderAll, List.append_assoc]

/-- One part alone is listed with the parts within it. -/
@[simp] theorem Part.preorderAll_singleton (part : Part) :
    Part.preorderAll [part] = part.preorder :=
  List.append_nil _

/-- A piece of a run as a part. -/
def Inline.part : Inline → Part
  | text span content => ⟨.text, content, span, []⟩
  | reference span name => ⟨.words .lemmeSee (.hashWord .mkay), name, span, []⟩

/-- A title as a part. -/
def Title.part (title : Title) : Part :=
  ⟨.words .gimmeh (.hashWord .mkay), title.content, title.span, []⟩

/-- An item as a part. -/
def Item.part (item : Item) : Part :=
  ⟨.words .gimmeh (.hashWord .mkay), "", item.span, item.children.map Inline.part⟩

mutual

/-- A node as a part. What an assignment is given as its name is written in the declaration. -/
def Node.part : Node → Part
  | .head span titles => ⟨.words .maek (.hashWord .oic), "", span, titles.map Title.part⟩
  | .paragraf span children => ⟨.words .maek (.hashWord .oic), "", span, Node.partAll children⟩
  | .list span items => ⟨.words .maek (.hashWord .oic), "", span, items.map Item.part⟩
  | .declaration span name => ⟨.words .iHaz (.name name), name, span, []⟩
  | .assignment span _ value => ⟨.words .itIz (.hashWord .mkay), value, span, []⟩
  | .inline piece => piece.part
  | .emphasis span _ children =>
      ⟨.words .gimmeh (.hashWord .mkay), "", span, children.map Inline.part⟩
  | .lineBreak span => ⟨.words .gimmeh (.keyword .newline), "", span, []⟩
  | .media span _ url => ⟨.words .gimmeh (.hashWord .mkay), url, span, []⟩

/-- Nodes as parts. -/
def Node.partAll : List Node → List Part
  | [] => []
  | node :: rest => node.part :: Node.partAll rest

end

/-- The parts of nodes are those of each of them. -/
@[simp] theorem Node.partAll_eq_map (nodes : List Node) :
    Node.partAll nodes = nodes.map Node.part := by
  induction nodes with
  | nil => rfl
  | cons node rest ih => rw [Node.partAll, ih, List.map_cons]

/-- A document as a part. -/
def Document.part (document : Document) : Part :=
  ⟨.words .hai (.hashWord .kthxbye), "", document.span, Node.partAll document.children⟩

/-- A construct that starts with the word can end with the lexeme. -/
def HashWord.endedBy : HashWord → Lexeme → Bool
  | .hai, .hashWord .kthxbye => true
  | .maek, .hashWord .oic => true
  | .gimmeh, .hashWord .mkay => true
  | .gimmeh, .keyword .newline => true
  | .lemmeSee, .hashWord .mkay => true
  | .itIz, .hashWord .mkay => true
  | .iHaz, .name _ => true
  | _, _ => false

/-- What a lexeme adds to the content of a document: free text, a name, or a keyword that is not
due as the kind of a construct. -/
def Lexeme.said? (due : Bool) : Lexeme → Option String
  | text content => some content
  | name identifier => some identifier
  | keyword word => if due then none else some word.spelling
  | _ => none

namespace Reader

/-! ## Open constructs -/

/-- The constructs that are still open, from the inside out: the first word of each and where it
stands, what is written in it so far, and the parts that are closed in it. Under all of them lies
what is closed outside of any construct. -/
inductive Stack where
  | root (parts : List Part)
  | level (first : HashWord) (opened : Position) (gathered : List String) (children : List Part)
      (outer : Stack)

/-- Add a part to the innermost open construct. -/
def Stack.add : Stack → Part → Stack
  | root parts, part => root (parts ++ [part])
  | level first opened gathered children outer, part =>
      level first opened gathered (children ++ [part]) outer

/-- The innermost open construct can end with the lexeme. -/
def Stack.endedBy : Stack → Lexeme → Bool
  | root _, _ => false
  | level first _ _ _ _, lexeme => first.endedBy lexeme

/-- The open blocks. The outermost one is the document. -/
def Block.stack (block : Block) : List Block → Stack
  | [] => .level .hai block.opened [] (Node.partAll block.children.toList) (.root [])
  | around :: outer =>
      .level .maek block.opened [] (Node.partAll block.children.toList) (around.stack outer)

/-- An open head and what is open around it. -/
def OpenHead.stack (head : OpenHead) (base : Stack) : Stack :=
  .level .maek head.opened [] (head.titles.toList.map Title.part) base

/-- An open list and what is open around it. -/
def OpenList.stack (list : OpenList) (base : Stack) : Stack :=
  .level .maek list.opened [] (list.items.toList.map Item.part) base

/-- An open run and what is open around it. -/
def OpenRun.stack (run : OpenRun) (base : Stack) : Stack :=
  match run.host with
  | .emphasis opened _ => .level .gimmeh opened [] (run.pieces.toList.map Inline.part) base
  | .item list opened =>
      .level .gimmeh opened [] (run.pieces.toList.map Inline.part) (list.stack base)

/-- The run that a reference belongs to, if there is one, and what is open around it. -/
def hosted (base : Stack) : Option OpenRun → Stack
  | none => base
  | some run => run.stack base

/-- The construct in whose middle the reader is and what is open around it. -/
def Focus.stack (base : Stack) : Focus → Stack
  | content _ => base
  | sectionKind opened => .level .maek opened [] [] base
  | .head part => part.stack base
  | titleKeyword part opened => .level .gimmeh opened [] [] (part.stack base)
  | title part opened parts => .level .gimmeh opened parts.toList [] (part.stack base)
  | .list part => part.stack base
  | itemKeyword part opened => .level .gimmeh opened [] [] (part.stack base)
  | .run part => part.stack base
  | referenceName host opened => .level .lemmeSee opened [] [] (hosted base host)
  | referenceEnd host opened name => .level .lemmeSee opened [name] [] (hosted base host)
  | declaration opened => .level .iHaz opened [] [] base
  | assignment opened parts => .level .itIz opened parts.toList [] base
  | style opened => .level .gimmeh opened [] [] base
  | media opened _ parts => .level .gimmeh opened parts.toList [] base

/-- The open constructs of a state inside a document. -/
def Inside.stack (state : Inside) : Stack :=
  state.focus.stack (state.block.stack state.outer)

/-- The open constructs of a state. -/
def State.stack : State → Stack
  | before => .root []
  | inside state => state.stack
  | after document => .root [document.part]

/-- The reader waits for a keyword that says the kind of a construct. -/
def Place.kindDue : Place → Bool
  | sectionKind | titleKeyword | itemKeyword | style => true
  | _ => false

/-- The reader waits for a keyword that says the kind of a construct. -/
def Control.kindDue : Control → Bool
  | inside place _ => place.kindDue
  | _ => false

/-- What a token does to the open constructs, where a keyword is due as a kind or not. A token that
is passed over or gathered could not end the innermost construct. -/
inductive Stack.Move (file : String) (due : Bool) (token : Token) : Stack → Stack → Prop where
  /-- The token says nothing and is passed over. -/
  | pass (stack) : token.lexeme.said? due = none → stack.endedBy token.lexeme = false →
      Move file due token stack stack
  /-- The token is a text of its own. -/
  | text (stack content) : token.lexeme.said? due = some content →
      Move file due token stack (stack.add ⟨.text, content, ⟨file, token.start, token.stop⟩, []⟩)
  /-- The token adds to what is written in a construct. -/
  | gather (first opened gathered outer content) : token.lexeme.said? due = some content →
      first.endedBy token.lexeme = false →
      Move file due token (.level first opened gathered [] outer)
        (.level first opened (gathered ++ [content]) [] outer)
  /-- The token is the first word of a construct. -/
  | opens (stack word) : token.lexeme = .hashWord word →
      Move file due token stack (.level word token.start [] [] stack)
  /-- The token is the last one of a construct, in which stands what was gathered and what the token
  says, blank characters aside. It says nothing where children stand before it. -/
  | closes (first opened gathered children outer own) :
      (children = [] ∨ token.lexeme.said? due = none) →
      Text.solid own = Text.solid (String.join (gathered ++ (token.lexeme.said? due).toList)) →
      first.endedBy token.lexeme = true →
      Move file due token (.level first opened gathered children outer)
        (outer.add ⟨.words first token.lexeme, own, ⟨file, opened, token.stop⟩, children⟩)

end Reader

end LolMarkup
