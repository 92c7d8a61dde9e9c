import LolMarkup.Proofs.Image.Soundness

/-!
# Printing documents

`Document.words` prints a document as a list of lexemes. A text is printed as one free text, which
says nothing at all if it is empty, and an assignment without its name: the reader finds the name
again. `Inside.Reads` says that some lexemes lead the reader from one state to another, and
`Node.reads_words` that the lexemes of a node lead it past this node, for every node of a well-made
document. Hence `Document.run?_words`: a well-made document is read again from its lexemes.
-/

namespace LolMarkup

open Lexing

/-- The keyword of a way of emphasising. -/
def Emphasis.keyword : Emphasis → Keyword
  | bold => .bold
  | italics => .italics

/-- The keyword of a kind of media. -/
def Media.keyword : Media → Keyword
  | sound => .soundz
  | video => .vidz

/-- The parts that a joined text is printed as. -/
def parts (content : String) : List String :=
  if content = "" then [] else [content]

/-- The lexemes of a piece of a run. -/
def Inline.words : Inline → List Lexeme
  | text _ content => [.text content]
  | reference _ name => [.hashWord .lemmeSee, .name name, .hashWord .mkay]

/-- The lexemes of a title. -/
def Title.words (title : Title) : List Lexeme :=
  [.hashWord .gimmeh, .keyword .title] ++ (parts title.content).map .text ++ [.hashWord .mkay]

/-- The lexemes of an item. -/
def Item.words (item : Item) : List Lexeme :=
  [.hashWord .gimmeh, .keyword .item] ++ item.children.flatMap Inline.words ++ [.hashWord .mkay]

mutual

/-- The lexemes of a node. -/
def Node.words : Node → List Lexeme
  | .head _ titles =>
      [.hashWord .maek, .keyword .head] ++ titles.flatMap Title.words ++ [.hashWord .oic]
  | .paragraf _ children =>
      [.hashWord .maek, .keyword .paragraf] ++ Node.wordsAll children ++ [.hashWord .oic]
  | .list _ items =>
      [.hashWord .maek, .keyword .list] ++ items.flatMap Item.words ++ [.hashWord .oic]
  | .declaration _ name => [.hashWord .iHaz, .name name]
  | .assignment _ _ value => [.hashWord .itIz] ++ (parts value).map .text ++ [.hashWord .mkay]
  | .inline piece => piece.words
  | .emphasis _ style children =>
      [.hashWord .gimmeh, .keyword style.keyword] ++ children.flatMap Inline.words ++
        [.hashWord .mkay]
  | .lineBreak _ => [.hashWord .gimmeh, .keyword .newline]
  | .media _ kind url =>
      [.hashWord .gimmeh, .keyword kind.keyword] ++ (parts url).map .text ++ [.hashWord .mkay]

/-- The lexemes of nodes that follow one another. -/
def Node.wordsAll : List Node → List Lexeme
  | [] => []
  | node :: rest => node.words ++ Node.wordsAll rest

end

/-- The lexemes of a document. -/
def Document.words (document : Document) : List Lexeme :=
  [.hashWord .hai] ++ Node.wordsAll document.children ++ [.hashWord .kthxbye]

/-! ## What is printed can be written -/

/-- A text that is joined of pieces is a piece itself, unless it is empty. -/
theorem isPiece_of_joined {separator content : String}
    (hseparator : ∀ c ∈ separator.toList, c ≠ '#' ∧ c ≠ '\n')
    (h : Joined IsPiece separator content) (hcontent : content ≠ "") : IsPiece content := by
  obtain ⟨pieces, hpieces, rfl⟩ := h
  refine isPiece_intercalate hseparator hpieces ?_
  rintro rfl
  exact hcontent String.intercalate_nil

/-- The parts that joined pieces are printed as are pieces. -/
theorem isPiece_of_mem_parts {separator content : String}
    (hseparator : ∀ c ∈ separator.toList, c ≠ '#' ∧ c ≠ '\n')
    (h : Joined IsPiece separator content) : ∀ s ∈ parts content, IsPiece s := by
  intro s hs
  rw [parts] at hs
  split at hs
  · cases hs
  · next hcontent =>
      rw [List.mem_singleton.mp hs]
      exact isPiece_of_joined hseparator h hcontent

/-- Joining the parts of a text gives the text back. -/
theorem joined_parts {separator content : String}
    (hseparator : ∀ c ∈ separator.toList, c ≠ '#' ∧ c ≠ '\n')
    (h : Joined IsPiece separator content) :
    Reader.joined separator (parts content).toArray = content := by
  have hjoined : Reader.joined separator (parts content).toArray =
      separator.intercalate (parts content) :=
    Reader.joined_of_isPiece hseparator (isPiece_of_mem_parts hseparator h)
  rw [hjoined, parts]
  split
  · next hcontent => exact hcontent.symm
  · exact String.intercalate_singleton

/-- The parts that joined pieces are printed as can be written. -/
theorem writable_parts {separator content : String}
    (hseparator : ∀ c ∈ separator.toList, c ≠ '#' ∧ c ≠ '\n')
    (h : Joined IsPiece separator content) :
    ∀ lexeme ∈ (parts content).map Lexeme.text, lexeme.Writable := by
  intro lexeme hlexeme
  obtain ⟨s, hs, rfl⟩ := List.mem_map.mp hlexeme
  exact isPiece_of_mem_parts hseparator h s hs

/-- The lexemes of a piece of a run can be written. -/
theorem Inline.writable_words {piece : Inline} (h : piece.Shaped IsPiece) :
    ∀ lexeme ∈ piece.words, lexeme.Writable := by
  cases piece with
  | text span content => simpa [words, Lexeme.Writable, Inline.Shaped] using h
  | reference span name => simpa [words, Lexeme.Writable, Inline.Shaped] using h

/-- The lexemes of a run can be written. -/
theorem Inline.writable_flatMap_words {children : List Inline}
    (h : ∀ child ∈ children, child.Shaped IsPiece) :
    ∀ lexeme ∈ children.flatMap Inline.words, lexeme.Writable := by
  intro lexeme hlexeme
  obtain ⟨child, hchild, hlexeme⟩ := List.mem_flatMap.mp hlexeme
  exact Inline.writable_words (h child hchild) lexeme hlexeme

/-- Lexemes between words of a document that can be written can be written. -/
theorem writable_between {front back middle : List Lexeme}
    (hfront : ∀ lexeme ∈ front, lexeme.Writable) (hmiddle : ∀ lexeme ∈ middle, lexeme.Writable)
    (hback : ∀ lexeme ∈ back, lexeme.Writable) :
    ∀ lexeme ∈ front ++ middle ++ back, lexeme.Writable := by
  intro lexeme hlexeme
  rw [List.mem_append, List.mem_append] at hlexeme
  rcases hlexeme with (hlexeme | hlexeme) | hlexeme
  · exact hfront lexeme hlexeme
  · exact hmiddle lexeme hlexeme
  · exact hback lexeme hlexeme

mutual

/-- The lexemes of a node can be written. -/
theorem Node.writable_words (node : Node) (h : node.Shaped IsPiece IsPiece) :
    ∀ lexeme ∈ node.words, lexeme.Writable := by
  cases node with
  | head span titles =>
      refine writable_between (by simp [Lexeme.Writable]) ?_ (by simp [Lexeme.Writable])
      intro lexeme hlexeme
      obtain ⟨title, htitle, hlexeme⟩ := List.mem_flatMap.mp hlexeme
      exact writable_between (by simp [Lexeme.Writable]) (writable_parts (by simp) (h title htitle))
        (by simp [Lexeme.Writable]) lexeme hlexeme
  | paragraf span children =>
      exact writable_between (by simp [Lexeme.Writable]) (Node.writable_wordsAll children h)
        (by simp [Lexeme.Writable])
  | list span items =>
      refine writable_between (by simp [Lexeme.Writable]) ?_ (by simp [Lexeme.Writable])
      intro lexeme hlexeme
      obtain ⟨item, hitem, hlexeme⟩ := List.mem_flatMap.mp hlexeme
      exact writable_between (by simp [Lexeme.Writable])
        (Inline.writable_flatMap_words (h item hitem)) (by simp [Lexeme.Writable]) lexeme hlexeme
  | declaration span name => simpa [Node.words, Lexeme.Writable, Node.Shaped] using h
  | assignment span name value =>
      exact writable_between (by simp [Lexeme.Writable]) (writable_parts (by simp) h)
        (by simp [Lexeme.Writable])
  | inline piece => exact Inline.writable_words h
  | emphasis span style children =>
      exact writable_between (by simp [Lexeme.Writable]) (Inline.writable_flatMap_words h)
        (by simp [Lexeme.Writable])
  | lineBreak span => simp [Node.words, Lexeme.Writable]
  | media span kind url =>
      exact writable_between (by simp [Lexeme.Writable]) (writable_parts (by simp) h)
        (by simp [Lexeme.Writable])

/-- The lexemes of nodes can be written. -/
theorem Node.writable_wordsAll (nodes : List Node) (h : Node.AllShaped IsPiece nodes) :
    ∀ lexeme ∈ Node.wordsAll nodes, lexeme.Writable := by
  cases nodes with
  | nil => simp [Node.wordsAll]
  | cons node rest =>
      intro lexeme hlexeme
      rcases List.mem_append.mp hlexeme with hlexeme | hlexeme
      · exact Node.writable_words node h.1 lexeme hlexeme
      · exact Node.writable_wordsAll rest h.2 lexeme hlexeme

end

/-- The lexemes of a document with shaped nodes can be written. -/
theorem Document.writable_words {document : Document}
    (h : ∀ node ∈ document.children, node.Shaped IsPiece IsPiece) :
    ∀ lexeme ∈ document.words, lexeme.Writable :=
  writable_between (by simp [Lexeme.Writable])
    (Node.writable_wordsAll _ ((Node.allShaped_iff _).mpr h)) (by simp [Lexeme.Writable])

namespace Reader

/-! ## What is printed is read -/

/-- The lexemes lead from one state inside a document to another. -/
def Inside.Reads (state : Inside) (lexemes : List Lexeme) (next : Inside) : Prop :=
  (State.inside state).run? lexemes = some (.inside next)

/-- Lexemes that lead from state to state can be read one after another. -/
theorem Inside.Reads.trans {first second third : Inside} {front back : List Lexeme}
    (hfront : first.Reads front second) (hback : second.Reads back third) :
    first.Reads (front ++ back) third := by
  rw [Inside.Reads, State.run?_append, hfront]
  exact hback

/-- Where every element leads on by one result, a list of elements leads on by a list of results. -/
theorem Inside.reads_flatMap {α β : Type} {words : α → List Lexeme} (place : Array β → Inside)
    {result : α → β} {elements : List α} {done : Array β}
    (h : ∀ x ∈ elements, ∀ done, (place done).Reads (words x) (place (done.push (result x)))) :
    (place done).Reads (elements.flatMap words) (place (done ++ elements.map result)) := by
  induction elements generalizing done with
  | nil => simp [Inside.Reads]
  | cons x elements ih =>
      rw [List.flatMap_cons, List.map_cons, Array.appendList_cons]
      exact (h x List.mem_cons_self done).trans
        (ih fun y hy => h y (List.mem_cons_of_mem x hy))

/-- Elements of one kind are read one after another if each of them can be read after any others. -/
theorem Inside.reads_all {α β : Type} {words : α → List Lexeme} (place : Array β → Inside)
    {result : α → β} {elements : List α}
    (h : ∀ x ∈ elements, ∀ done, (place done).Reads (words x) (place (done.push (result x)))) :
    (place #[]).Reads (elements.flatMap words) (place (elements.map result).toArray) := by
  have hreads : (place #[]).Reads (elements.flatMap words) (place (#[] ++ elements.map result)) :=
    Inside.reads_flatMap place h
  simpa using hreads

/-- The texts of a list lead past themselves where one text does. -/
theorem Inside.reads_texts (place : Array String → Inside) (texts : List String)
    (h : ∀ s done, (place done).Reads [.text s] (place (done.push s))) :
    (place #[]).Reads (texts.map .text) (place texts.toArray) := by
  have hreads : (place #[]).Reads (texts.flatMap fun s => [.text s])
      (place (texts.map id).toArray) := Inside.reads_all place fun s _ => h s
  rw [List.map_eq_flatMap]
  rwa [List.map_id] at hreads

variable {state : Inside}

/-- A word that starts a construct is read between two nodes of any block. -/
theorem Inside.reads_opening {declared : Bool} {word : HashWord} {next : Inside}
    (hfocus : state.focus = .content declared)
    (h : opening? state ⟨.hashWord word, .origin, .origin⟩ = some next) :
    state.Reads [.hashWord word] next := by
  obtain ⟨pending, block, outer, focus⟩ := state
  subst hfocus
  cases word <;> cases h <;> cases outer <;> rfl

/-- The lexemes of a title are read as the title. -/
theorem Inside.reads_title {title : Title} (h : title.Shaped IsPiece) (opened : Position)
    (titles : Array Title) :
    (state.focusing (.head ⟨opened, titles⟩)).Reads title.words
      (state.focusing (.head ⟨opened, titles.push title.bare⟩)) := by
  have hopen : (state.focusing (.head ⟨opened, titles⟩)).Reads
      [.hashWord .gimmeh, .keyword .title]
      (state.focusing (.title ⟨opened, titles⟩ .origin #[])) := rfl
  have htexts := Inside.reads_texts
    (fun done => state.focusing (.title ⟨opened, titles⟩ .origin done)) (parts title.content)
    fun _ _ => rfl
  have hclose : (state.focusing
      (.title ⟨opened, titles⟩ .origin (parts title.content).toArray)).Reads [.hashWord .mkay]
      (state.focusing (.head ⟨opened, titles.push title.bare⟩)) := by
    have htitle : title.bare = ⟨.blank, joined " " (parts title.content).toArray⟩ := by
      rw [joined_parts (by simp) h]
      rfl
    rw [htitle]
    rfl
  exact (hopen.trans htexts).trans hclose

/-- The lexemes of a run are read as its pieces. -/
theorem Inside.reads_inlines (host : RunHost) (children : List Inline) :
    (state.focusing (.run ⟨host, #[]⟩)).Reads (children.flatMap Inline.words)
      (state.focusing (.run ⟨host, (children.map Inline.bare).toArray⟩)) := by
  refine Inside.reads_all (fun done => state.focusing (.run ⟨host, done⟩)) ?_
  intro child _ done
  cases child <;> rfl

/-- The lexemes of an item are read as the item. -/
theorem Inside.reads_item {item : Item} (opened : Position) (items : Array Item) :
    (state.focusing (.list ⟨opened, items⟩)).Reads item.words
      (state.focusing (.list ⟨opened, items.push item.bare⟩)) := by
  have hopen : (state.focusing (.list ⟨opened, items⟩)).Reads [.hashWord .gimmeh, .keyword .item]
      (state.focusing (.run ⟨.item ⟨opened, items⟩ .origin, #[]⟩)) := rfl
  have hclose : (state.focusing (.run ⟨.item ⟨opened, items⟩ .origin,
      (item.children.map Inline.bare).toArray⟩)).Reads [.hashWord .mkay]
      (state.focusing (.list ⟨opened, items.push item.bare⟩)) := rfl
  exact (hopen.trans (Inside.reads_inlines _ _)).trans hclose

/-- The last of the nodes is a declaration. -/
def endsDeclaring (nodes : List Node) : Bool :=
  match nodes.getLast? with
  | some (.declaration _ _) => true
  | _ => false

/-- The state past nodes that were read without spans, where the marks before them are given and the
nodes before them in their block. -/
def Inside.past (state : Inside) (done : List Mark) (before nodes : List Node) : Inside :=
  ⟨Mark.waiting (done ++ Node.marks nodes),
    ⟨state.block.opened, state.block.children ++ nodes.map Node.bare⟩, state.outer,
    .content (endsDeclaring (before ++ nodes))⟩

/-- Past no nodes the state is what it was. -/
theorem Inside.past_nil {done : List Mark} {before : List Node}
    (hfocus : state.focus = .content (endsDeclaring before))
    (hpending : state.pending = Mark.waiting done) : state.past done before [] = state := by
  simp [past, Node.marks, Node.preorderAll, ← hfocus, ← hpending]

/-- Past some nodes and then past others the state is past all of them. -/
theorem Inside.past_append (done : List Mark) (before first second : List Node) :
    (state.past done before first).past (done ++ Node.marks first) (before ++ first) second =
      state.past done before (first ++ second) := by
  have hchildren : state.block.children ++ first.map Node.bare ++ second.map Node.bare =
      state.block.children ++ (first ++ second).map Node.bare := by
    apply Array.toList_inj.mp
    simp
  simp [past, Node.marks_append, hchildren]

/-- Past a node without marks the same name waits for a value. -/
theorem Inside.past_eq_add {done : List Mark} {before : List Node} {node : Node}
    (hpending : state.pending = Mark.waiting done) (hmarks : Node.marks [node] = []) :
    state.past done before [node] = state.add node.bare := by
  have hnode : endsDeclaring (before ++ [node]) = false := by
    rw [endsDeclaring, List.getLast?_concat]
    cases node with
    | declaration span name => cases hmarks
    | _ => rfl
  rw [past, hmarks, List.append_nil, ← hpending, hnode]
  simp [add]

variable {declared : Bool}

/-- The lexemes of a head are read as the head. -/
theorem Inside.reads_head (hfocus : state.focus = .content declared) (span : Span)
    {titles : List Title} (h : ∀ title ∈ titles, title.Shaped IsPiece) :
    state.Reads (Node.head span titles).words (state.add (Node.head span titles).bare) := by
  have hopen : state.Reads [.hashWord .maek] (state.focusing (.sectionKind .origin)) :=
    Inside.reads_opening hfocus rfl
  have hkind : (state.focusing (.sectionKind .origin)).Reads [.keyword .head]
      (state.focusing (.head ⟨.origin, #[]⟩)) := rfl
  have htitles : (state.focusing (.head ⟨.origin, #[]⟩)).Reads (titles.flatMap Title.words)
      (state.focusing (.head ⟨.origin, (titles.map Title.bare).toArray⟩)) :=
    Inside.reads_all (fun done => state.focusing (.head ⟨.origin, done⟩))
      fun title htitle done => Inside.reads_title (h title htitle) .origin done
  have hclose : (state.focusing (.head ⟨.origin, (titles.map Title.bare).toArray⟩)).Reads
      [.hashWord .oic] (state.add (Node.head span titles).bare) := rfl
  exact ((hopen.trans hkind).trans htitles).trans hclose

/-- The lexemes of a list are read as the list. -/
theorem Inside.reads_list (hfocus : state.focus = .content declared) (span : Span)
    (items : List Item) :
    state.Reads (Node.list span items).words (state.add (Node.list span items).bare) := by
  have hopen : state.Reads [.hashWord .maek] (state.focusing (.sectionKind .origin)) :=
    Inside.reads_opening hfocus rfl
  have hkind : (state.focusing (.sectionKind .origin)).Reads [.keyword .list]
      (state.focusing (.list ⟨.origin, #[]⟩)) := rfl
  have hitems : (state.focusing (.list ⟨.origin, #[]⟩)).Reads (items.flatMap Item.words)
      (state.focusing (.list ⟨.origin, (items.map Item.bare).toArray⟩)) :=
    Inside.reads_all (fun done => state.focusing (.list ⟨.origin, done⟩))
      fun _ _ done => Inside.reads_item .origin done
  have hclose : (state.focusing (.list ⟨.origin, (items.map Item.bare).toArray⟩)).Reads
      [.hashWord .oic] (state.add (Node.list span items).bare) := rfl
  exact ((hopen.trans hkind).trans hitems).trans hclose

/-- The lexemes of a piece between two nodes are read as this piece. -/
theorem Inside.reads_inline (hfocus : state.focus = .content declared) (piece : Inline) :
    state.Reads piece.words (state.add (Node.inline piece).bare) := by
  cases piece with
  | text span content =>
      obtain ⟨pending, block, outer, focus⟩ := state
      subst hfocus
      cases outer <;> rfl
  | reference span name =>
      have hopen : state.Reads [.hashWord .lemmeSee]
          (state.focusing (.referenceName none .origin)) :=
        Inside.reads_opening hfocus rfl
      exact hopen.trans rfl

/-- The lexemes of an emphasis are read as the emphasis. -/
theorem Inside.reads_emphasis (hfocus : state.focus = .content declared) (span : Span)
    (style : Emphasis) (children : List Inline) :
    state.Reads (Node.emphasis span style children).words
      (state.add (Node.emphasis span style children).bare) := by
  have hopen : state.Reads [.hashWord .gimmeh] (state.focusing (.style .origin)) :=
    Inside.reads_opening hfocus rfl
  have hkind : (state.focusing (.style .origin)).Reads [.keyword style.keyword]
      (state.focusing (.run ⟨.emphasis .origin style, #[]⟩)) := by
    cases style <;> rfl
  have hclose : (state.focusing (.run ⟨.emphasis .origin style,
      (children.map Inline.bare).toArray⟩)).Reads [.hashWord .mkay]
      (state.add (Node.emphasis span style children).bare) := rfl
  exact ((hopen.trans hkind).trans (Inside.reads_inlines _ _)).trans hclose

/-- The lexemes of a line break are read as the line break. -/
theorem Inside.reads_lineBreak (hfocus : state.focus = .content declared) (span : Span) :
    state.Reads (Node.lineBreak span).words (state.add (Node.lineBreak span).bare) := by
  have hopen : state.Reads [.hashWord .gimmeh] (state.focusing (.style .origin)) :=
    Inside.reads_opening hfocus rfl
  exact hopen.trans rfl

/-- The lexemes of embedded media are read as the media, if their address is made of pieces. -/
theorem Inside.reads_media (hfocus : state.focus = .content declared) (span : Span) (kind : Media)
    {url : String} (h : Joined IsPiece "" url) :
    state.Reads (Node.media span kind url).words (state.add (Node.media span kind url).bare) := by
  have hopen : state.Reads [.hashWord .gimmeh] (state.focusing (.style .origin)) :=
    Inside.reads_opening hfocus rfl
  have hkind : (state.focusing (.style .origin)).Reads [.keyword kind.keyword]
      (state.focusing (.media .origin kind #[])) := by
    cases kind <;> rfl
  have htexts := Inside.reads_texts (fun done => state.focusing (.media .origin kind done))
    (parts url) fun _ _ => rfl
  have hclose : (state.focusing (.media .origin kind (parts url).toArray)).Reads [.hashWord .mkay]
      (state.add (.media .blank kind (joined "" (parts url).toArray))) := rfl
  rw [joined_parts (by simp) h] at hclose
  exact ((hopen.trans hkind).trans htexts).trans hclose

/-- The lexemes of a declaration are read as the declaration, and its name waits for a value. -/
theorem Inside.reads_declaration (hfocus : state.focus = .content declared) (span : Span)
    (name : String) {done : List Mark} {before : List Node} :
    state.Reads (Node.declaration span name).words
      (state.past done before [.declaration span name]) := by
  have hopen : state.Reads [.hashWord .iHaz] (state.focusing (.declaration .origin)) :=
    Inside.reads_opening hfocus rfl
  have hpast : state.past done before [.declaration span name] =
      ⟨some name, ⟨state.block.opened, state.block.children.push (.declaration .blank name)⟩,
        state.outer, .content true⟩ := by
    simp [Inside.past, endsDeclaring, Node.bare]
  rw [hpast]
  exact hopen.trans rfl

/-- The lexemes of an assignment, which do not hold its name, lead past it if its name is the one
that waits for a value. -/
theorem Inside.reads_assignment (hfocus : state.focus = .content declared) {span : Span}
    {name : Option String} {value : String} {done : List Mark} {before : List Node}
    (hready : state.outer = [] → declared = true) (hname : name = state.pending)
    (h : Joined IsPiece "" value) :
    state.Reads (Node.assignment span name value).words
      (state.past done before [.assignment span name value]) := by
  have hopen : state.Reads [.hashWord .itIz] (state.focusing (.assignment .origin #[])) := by
    obtain ⟨pending, block, outer, focus⟩ := state
    subst hfocus
    cases outer with
    | nil =>
        obtain rfl := hready rfl
        rfl
    | cons around outer => rfl
  have htexts := Inside.reads_texts (fun done => state.focusing (.assignment .origin done))
    (parts value) fun _ _ => rfl
  have hclose : (state.focusing (.assignment .origin (parts value).toArray)).Reads
      [.hashWord .mkay] ⟨none, ⟨state.block.opened, state.block.children.push
        (.assignment .blank state.pending (joined "" (parts value).toArray))⟩, state.outer,
        .content false⟩ := rfl
  have hpast : state.past done before [.assignment span name value] =
      ⟨none, ⟨state.block.opened, state.block.children.push (.assignment .blank name value)⟩,
        state.outer, .content false⟩ := by
    simp [Inside.past, endsDeclaring, Node.bare]
  rw [joined_parts (by simp) h, ← hname] at hclose
  rw [hpast]
  exact (hopen.trans htexts).trans hclose

/-- If the nodes of a paragraf lead past themselves in a block of their own, the paragraf does. -/
theorem Inside.reads_paragraf (hfocus : state.focus = .content declared) {span : Span}
    {children : List Node} {done : List Mark} {before : List Node}
    (h : Inside.Reads ⟨state.pending, ⟨.origin, #[]⟩, state.block :: state.outer, .content false⟩
      (Node.wordsAll children)
      (Inside.past ⟨state.pending, ⟨.origin, #[]⟩, state.block :: state.outer, .content false⟩ done
        [] children)) :
    state.Reads (Node.paragraf span children).words
      (state.past done before [.paragraf span children]) := by
  have hopen : state.Reads [.hashWord .maek] (state.focusing (.sectionKind .origin)) :=
    Inside.reads_opening hfocus rfl
  have hkind : (state.focusing (.sectionKind .origin)).Reads [.keyword .paragraf]
      ⟨state.pending, ⟨.origin, #[]⟩, state.block :: state.outer, .content false⟩ := rfl
  have hclose : (Inside.past ⟨state.pending, ⟨.origin, #[]⟩, state.block :: state.outer,
      .content false⟩ done [] children).Reads [.hashWord .oic]
      ⟨Mark.waiting (done ++ Node.marks children), ⟨state.block.opened, state.block.children.push
        (.paragraf .blank ((#[] : Array Node) ++ children.map Node.bare).toList)⟩, state.outer,
        .content false⟩ := rfl
  have hpast : state.past done before [.paragraf span children] =
      ⟨Mark.waiting (done ++ Node.marks children), ⟨state.block.opened, state.block.children.push
        (.paragraf .blank ((#[] : Array Node) ++ children.map Node.bare).toList)⟩, state.outer,
        .content false⟩ := by
    simp [Inside.past, endsDeclaring, Node.bare]
  rw [hpast]
  exact ((hopen.trans hkind).trans h).trans hclose

/-- A document or paragraf in which an assignment follows has a declaration before it. -/
theorem endsDeclaring_of_paired {before : List Node} {span : Span} {name : Option String}
    {value : String} (h : Node.Paired (before ++ [.assignment span name value])) :
    endsDeclaring before = true := by
  obtain ⟨span', name', hlast⟩ := h before span name value [] rfl
  rw [endsDeclaring, hlast]

mutual

/-- The lexemes of a node lead past it if the marks up to it name the assignments in it well, and if
it follows a declaration where it is an assignment of the document. -/
theorem Node.reads_words (node : Node) {state : Inside} {done : List Mark} {before : List Node}
    (hfocus : state.focus = .content (endsDeclaring before))
    (hpending : state.pending = Mark.waiting done) (hshaped : node.Shaped IsPiece IsPiece)
    (hnamed : Mark.Named (done ++ Node.marks [node]))
    (hpaired : state.outer = [] → Node.Paired (before ++ [node])) :
    state.Reads node.words (state.past done before [node]) := by
  cases node with
  | head span titles =>
      rw [Inside.past_eq_add hpending rfl]
      exact Inside.reads_head hfocus span hshaped
  | paragraf span children =>
      -- The children have a block of their own, but the marks go on where they were.
      rw [Node.marks_paragraf] at hnamed
      refine Inside.reads_paragraf hfocus ?_
      exact Node.reads_wordsAll children rfl hpending hshaped hnamed (fun houter => by cases houter)
  | list span items =>
      rw [Inside.past_eq_add hpending rfl]
      exact Inside.reads_list hfocus span items
  | declaration span name => exact Inside.reads_declaration hfocus span name
  | assignment span name value =>
      -- The name is not printed, but the marks so far leave the reader waiting with it.
      have hname : name = state.pending := hpending ▸ hnamed done name [] rfl
      exact Inside.reads_assignment hfocus (fun houter => endsDeclaring_of_paired (hpaired houter))
        hname hshaped
  | inline piece =>
      rw [Inside.past_eq_add hpending rfl]
      exact Inside.reads_inline hfocus piece
  | emphasis span style children =>
      rw [Inside.past_eq_add hpending rfl]
      exact Inside.reads_emphasis hfocus span style children
  | lineBreak span =>
      rw [Inside.past_eq_add hpending rfl]
      exact Inside.reads_lineBreak hfocus span
  | media span kind url =>
      rw [Inside.past_eq_add hpending rfl]
      exact Inside.reads_media hfocus span kind hshaped

/-- The lexemes of nodes that follow one another lead past them. -/
theorem Node.reads_wordsAll (nodes : List Node) {state : Inside} {done : List Mark}
    {before : List Node} (hfocus : state.focus = .content (endsDeclaring before))
    (hpending : state.pending = Mark.waiting done) (hshaped : Node.AllShaped IsPiece nodes)
    (hnamed : Mark.Named (done ++ Node.marks nodes))
    (hpaired : state.outer = [] → Node.Paired (before ++ nodes)) :
    state.Reads (Node.wordsAll nodes) (state.past done before nodes) := by
  cases nodes with
  | nil =>
      rw [Inside.past_nil hfocus hpending]
      rfl
  | cons node rest =>
      rw [← List.singleton_append, Node.marks_append, ← List.append_assoc] at hnamed
      have hpaired' (houter : state.outer = []) : Node.Paired ((before ++ [node]) ++ rest) := by
        rw [List.append_assoc]
        exact hpaired houter
      have hnode := Node.reads_words node hfocus hpending hshaped.1 hnamed.of_append
        fun houter => (hpaired' houter).of_append
      have hrest : (state.past done before [node]).Reads (Node.wordsAll rest) _ :=
        Node.reads_wordsAll rest rfl rfl hshaped.2 hnamed hpaired'
      rw [Inside.past_append] at hrest
      exact hnode.trans hrest

end

end Reader

open Reader

/-- A well-made document is read again, without spans, from its lexemes. -/
theorem Document.run?_words {document : Document} (h : document.WellMade IsPiece IsPiece) :
    State.before.run? document.words = some (.after document.bare) := by
  have hopen : State.before.run? [.hashWord .hai] =
      some (.inside ⟨none, ⟨.origin, #[]⟩, [], .content false⟩) := rfl
  have hnodes : Inside.Reads ⟨none, ⟨.origin, #[]⟩, [], .content false⟩
      (Node.wordsAll document.children)
      (Inside.past ⟨none, ⟨.origin, #[]⟩, [], .content false⟩ [] [] document.children) :=
    Node.reads_wordsAll document.children rfl rfl ((Node.allShaped_iff _).mpr h.shaped) h.named
      fun _ => h.paired
  have hclose : (State.inside (Inside.past ⟨none, ⟨.origin, #[]⟩, [], .content false⟩ [] []
      document.children)).run? [.hashWord .kthxbye] = some (.after ⟨.blank,
        ((#[] : Array Node) ++ document.children.map Node.bare).toList⟩) := rfl
  rw [Document.words, State.run?_append, State.run?_append, hopen]
  show ((State.inside _).run? _).bind _ = _
  rw [hnodes]
  show (State.inside _).run? _ = _
  rw [hclose]
  simp [Document.bare]

end LolMarkup
