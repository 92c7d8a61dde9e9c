import LolMarkup.Proofs.Image.WellMade

/-!
# What is read is well made

`Inside.Sound` says of a state of the reader what `Document.WellMade` says of a document: the nodes
and parts read so far are made of pieces and names, the assignments among them have the right names,
and the name that waits for a value in the state is the one that waits after their marks. Every step
on a writable lexeme keeps it (`State.Sound.next`), so every document that is read is well made
(`Source.wellMade_of_document`).
-/

namespace LolMarkup

open Lexing

namespace Reader

/-- A run whose pieces, and the items of its list if it has one, are made of pieces and names. -/
def OpenRun.Sound (run : OpenRun) : Prop :=
  (∀ piece ∈ run.pieces.toList, piece.Shaped IsPiece) ∧
    ∀ list opened, run.host = .item list opened → ∀ item ∈ list.items.toList, item.Shaped IsPiece

/-- A construct in the middle of which all parts so far are made of pieces and names. -/
def Focus.Sound : Focus → Prop
  | content _ | sectionKind _ | declaration _ | style _ => True
  | .head part | titleKeyword part _ => ∀ title ∈ part.titles.toList, title.Shaped IsPiece
  | title part _ parts =>
      (∀ title ∈ part.titles.toList, title.Shaped IsPiece) ∧ ∀ s ∈ parts.toList, IsPiece s
  | .list part | itemKeyword part _ => ∀ item ∈ part.items.toList, item.Shaped IsPiece
  | .run part => part.Sound
  | referenceName host _ => ∀ run ∈ host, run.Sound
  | referenceEnd host _ name => (∀ run ∈ host, run.Sound) ∧ IsName name
  | assignment _ parts | media _ _ parts => ∀ s ∈ parts.toList, IsPiece s

/-- The marks of the nodes read so far, in the order of the document. -/
def Inside.marks (state : Inside) : List Mark :=
  (state.block :: state.outer).reverse.flatMap fun block => Node.marks block.children.toList

/-- The block of the document itself. -/
def Inside.outermost (state : Inside) : Block :=
  state.outer.getLastD state.block

/-- The last node of the block is a declaration. -/
def Block.Declared (block : Block) : Prop :=
  ∃ span name, block.children.toList.getLast? = some (.declaration span name)

/-- An assignment may follow as part of its declaration, or it has begun. -/
def Focus.assigning : Focus → Bool
  | content declared => declared
  | assignment _ _ => true
  | _ => false

/-- An assignment that does not stand in a paragraf may follow or has begun. -/
def Inside.Ready (state : Inside) : Prop :=
  state.focus = .content true ∨
    state.outer = [] ∧ ∃ opened parts, state.focus = .assignment opened parts

/-- In the middle of anything else a state is not ready for an assignment. -/
theorem Inside.not_ready {state : Inside} (h : state.focus.assigning = false) : ¬ state.Ready := by
  rintro (hready | ⟨-, opened, parts, hready⟩)
  · rw [hready] at h
    cases h
  · rw [hready] at h
    cases h

/-- The nodes and parts read so far are as those of a well-made document, and the name that waits
for a value is right. -/
structure Inside.Sound (state : Inside) : Prop where
  shaped : ∀ block ∈ state.block :: state.outer, ∀ node ∈ block.children.toList,
    node.Shaped IsPiece IsPiece
  paired : Node.Paired state.outermost.children.toList
  named : Mark.Named state.marks
  pending : state.pending = Mark.waiting state.marks
  focus : state.focus.Sound
  ready : state.Ready → state.block.Declared

/-! ## What the steps do to the marks -/

/-- The marks so far are those of the blocks around the innermost one and then its own. -/
theorem Inside.marks_eq (state : Inside) :
    state.marks = (state.outer.reverse.flatMap fun block => Node.marks block.children.toList) ++
      Node.marks state.block.children.toList := by
  simp [marks]

/-- A node that is added adds its marks. -/
theorem Inside.marks_add (state : Inside) (node : Node) :
    (state.add node).marks = state.marks ++ Node.marks [node] := by
  simp [marks_eq, add, Node.marks_append]

/-- Entering a paragraf adds no marks. -/
theorem Inside.marks_enter (state : Inside) (opened : Position) (focus : Focus) :
    Inside.marks ⟨state.pending, ⟨opened, #[]⟩, state.block :: state.outer, focus⟩ =
      state.marks := by
  rw [marks_eq]
  exact List.append_nil _

/-- Closing a paragraf leaves the marks where they are. -/
theorem Inside.marks_leave (state : Inside) {around : Block} {outer : List Block} (span : Span)
    (h : state.outer = around :: outer) :
    (Inside.add { state with block := around, outer }
      (.paragraf span state.block.children.toList)).marks = state.marks := by
  rw [marks_add, Node.marks_paragraf, state.marks_eq, h]
  rfl

/-! ## Steps that keep a state sound -/

variable {state : Inside}

/-- An array of children with one more is a list with one more. -/
theorem Inside.block_add (state : Inside) (node : Node) :
    (state.add node).block.children.toList = state.block.children.toList ++ [node] :=
  Array.toList_push

/-- Turning to another construct keeps a state sound, if what the construct has so far is sound. -/
theorem Inside.Sound.focusing (h : state.Sound) {focus : Focus} (hfocus : focus.Sound)
    (hready : (state.focusing focus).Ready → state.block.Declared) :
    (state.focusing focus).Sound :=
  ⟨h.shaped, h.paired, h.named, h.pending, hfocus, hready⟩

/-- A focus at which no assignment may follow keeps a state sound. -/
theorem Inside.Sound.refocus (h : state.Sound) {focus : Focus} (hfocus : focus.Sound)
    (hplain : focus.assigning = false) : (state.focusing focus).Sound :=
  h.focusing hfocus fun hready => absurd hready (Inside.not_ready hplain)

/-- One more node of the innermost block keeps the nodes shaped. -/
theorem Inside.Sound.shaped_add (h : state.Sound) {node : Node}
    (hnode : node.Shaped IsPiece IsPiece) :
    ∀ block ∈ (state.add node).block :: state.outer, ∀ child ∈ block.children.toList,
      child.Shaped IsPiece IsPiece := by
  intro block hblock child hchild
  rcases List.mem_cons.mp hblock with rfl | hblock
  · rw [Inside.block_add, List.mem_append, List.mem_singleton] at hchild
    rcases hchild with hchild | rfl
    · exact h.shaped _ List.mem_cons_self child hchild
    · exact hnode
  · exact h.shaped block (List.mem_cons_of_mem _ hblock) child hchild

/-- One more node of the innermost block keeps the assignments of the document behind declarations
if, where the block is the document, it is no assignment or follows a declaration. -/
theorem Inside.Sound.paired_add (h : state.Sound) {node : Node}
    (hnode : state.outer = [] → ∀ span name value, node = .assignment span name value →
      state.block.Declared) :
    Node.Paired (state.add node).outermost.children.toList := by
  have hpaired := h.paired
  rw [Inside.outermost] at hpaired ⊢
  cases houter : state.outer with
  | nil =>
      rw [houter] at hpaired
      have houter' : (state.add node).outer = [] := houter
      rw [houter', List.getLastD_nil, Inside.block_add]
      exact hpaired.concat (hnode houter)
  | cons around outer =>
      rw [houter] at hpaired
      have houter' : (state.add node).outer = around :: outer := houter
      rwa [houter', List.getLastD_cons] at *

/-- A node that is neither a declaration nor an assignment keeps a state sound. -/
theorem Inside.Sound.add (h : state.Sound) {node : Node} (hnode : node.Shaped IsPiece IsPiece)
    (hmarks : Node.marks [node] = []) : (state.add node).Sound where
  shaped := h.shaped_add hnode
  paired := by
    refine h.paired_add ?_
    rintro - span name value rfl
    simp at hmarks
  named := by
    rw [Inside.marks_add, hmarks, List.append_nil]
    exact h.named
  pending := by
    rw [Inside.marks_add, hmarks, List.append_nil]
    exact h.pending
  focus := trivial
  ready := fun hready => absurd hready (Inside.not_ready rfl)

/-- A declaration keeps a state sound: from now on its name waits for a value. -/
theorem Inside.Sound.declare (h : state.Sound) (file : String) (opened : Position) (token : Token)
    {name : String} (hname : IsName name) : (declare file state opened token name).Sound where
  shaped := h.shaped_add hname
  paired := by
    refine h.paired_add ?_
    rintro - span name value hnode
    cases hnode
  named := by
    refine (state.marks_add _).symm ▸ h.named.concat ?_
    intro name hname
    cases hname
  pending := by
    have hmarks := state.marks_add (.declaration (spanTo file opened token) name)
    exact (hmarks ▸ Mark.waiting_declares state.marks name).symm
  focus := trivial
  ready := fun _ => ⟨spanTo file opened token, name, by
    have hblock := state.block_add (.declaration (spanTo file opened token) name)
    exact hblock ▸ List.getLast?_concat⟩

/-- An assignment with the name that waits for a value keeps a state sound. -/
theorem Inside.Sound.assign (h : state.Sound) (span : Span) {value : String}
    (hvalue : Joined IsPiece "" value) (hready : state.outer = [] → state.block.Declared) :
    Inside.Sound { state.add (.assignment span state.pending value) with pending := none } where
  shaped := h.shaped_add hvalue
  paired := h.paired_add fun houter _ _ _ _ => hready houter
  named := by
    refine (state.marks_add _).symm ▸ h.named.concat ?_
    intro name hname
    cases hname
    exact h.pending
  pending := by
    have hmarks := state.marks_add (.assignment span state.pending value)
    exact (hmarks ▸ Mark.waiting_assigns state.marks state.pending).symm
  focus := trivial
  ready := fun hready => absurd hready (Inside.not_ready rfl)

/-- Entering a paragraf keeps a state sound. -/
theorem Inside.Sound.enter (h : state.Sound) (opened : Position) :
    Inside.Sound ⟨state.pending, ⟨opened, #[]⟩, state.block :: state.outer, .content false⟩ where
  shaped := by
    intro block hblock node hnode
    rcases List.mem_cons.mp hblock with rfl | hblock
    · cases hnode
    · exact h.shaped block hblock node hnode
  paired := by
    rw [Inside.outermost, List.getLastD_cons]
    exact h.paired
  named := by
    rw [Inside.marks_enter]
    exact h.named
  pending := by
    rw [Inside.marks_enter]
    exact h.pending
  focus := trivial
  ready := fun hready => absurd hready (Inside.not_ready rfl)

/-- Closing a paragraf keeps a state sound. -/
theorem Inside.Sound.leave (h : state.Sound) {around : Block} {outer : List Block} (span : Span)
    (houter : state.outer = around :: outer) :
    Inside.Sound (Inside.add { state with block := around, outer }
      (.paragraf span state.block.children.toList)) where
  shaped := by
    intro block hblock node hnode
    rcases List.mem_cons.mp hblock with rfl | hblock
    · rw [Inside.block_add, List.mem_append, List.mem_singleton] at hnode
      rcases hnode with hnode | rfl
      · exact h.shaped around (by simp [houter]) node hnode
      · rw [Node.Shaped, Node.allShaped_iff]
        exact h.shaped _ List.mem_cons_self
    · have hmem : block ∈ outer := hblock
      exact h.shaped block (by simp [houter, hmem]) node hnode
  paired := by
    have hpaired := h.paired
    rw [Inside.outermost, houter, List.getLastD_cons] at hpaired
    -- The paragraf becomes a node of the document only if nothing else is open around it.
    cases outer with
    | nil =>
        rw [Inside.outermost]
        show Node.Paired (Array.push _ _).toList
        rw [Array.toList_push]
        refine hpaired.concat ?_
        intro span name value hnode
        cases hnode
    | cons last outer => exact hpaired
  named := by
    rw [Inside.marks_leave state span houter]
    exact h.named
  pending := by
    rw [Inside.marks_leave state span houter]
    exact h.pending
  focus := trivial
  ready := fun hready => absurd hready (Inside.not_ready rfl)

/-! ## One step -/

/-- Joining pieces trims nothing. -/
theorem joined_of_isPiece {separator : String}
    (hseparator : ∀ c ∈ separator.toList, c ≠ '#' ∧ c ≠ '\n') {parts : Array String}
    (h : ∀ s ∈ parts.toList, IsPiece s) :
    joined separator parts = separator.intercalate parts.toList := by
  rw [joined]
  by_cases hparts : parts.toList = []
  · rw [hparts]
    rfl
  · exact (isPiece_intercalate hseparator h hparts).2.1

/-- Joining pieces gives a text that is made of pieces. -/
theorem joined_isPiece {separator : String}
    (hseparator : ∀ c ∈ separator.toList, c ≠ '#' ∧ c ≠ '\n') {parts : Array String}
    (h : ∀ s ∈ parts.toList, IsPiece s) : Joined IsPiece separator (joined separator parts) :=
  ⟨parts.toList, h, joined_of_isPiece hseparator h⟩

/-- The content of a writable text or name is a piece. -/
theorem isPiece_of_writable {lexeme : Lexeme} (h : lexeme.Writable) {content : String}
    (hlexeme : lexeme = .text content ∨ lexeme = .name content) : IsPiece content := by
  rcases hlexeme with rfl | rfl
  · exact h
  · exact IsName.isPiece h

/-- What holds of the elements of an array and of one more holds of all when this one is pushed. -/
theorem forall_mem_push {α : Type} {p : α → Prop} {xs : Array α} {x : α}
    (h : ∀ y ∈ xs.toList, p y) (hx : p x) : ∀ y ∈ (xs.push x).toList, p y := by
  intro y hy
  rw [Array.toList_push, List.mem_append, List.mem_singleton] at hy
  rcases hy with hy | rfl
  · exact h y hy
  · exact hx

section Step

variable {file : String} {token : Token}

/-- The first word of a construct keeps a state sound. -/
theorem Inside.Sound.opening {next : Inside} (h : state.Sound)
    (hnext : opening? state token = some next) : next.Sound := by
  rw [opening?] at hnext
  split at hnext <;> cases hnext
  · exact h.refocus trivial rfl
  · exact h.refocus trivial rfl
  · exact h.refocus (by simp [Focus.Sound]) rfl
  · exact h.refocus trivial rfl

/-- A piece of text between two nodes keeps a state sound. -/
theorem Inside.Sound.text (h : state.Sound) {content : String} (hcontent : IsPiece content) :
    (state.add (.inline (textPiece file token content))).Sound :=
  h.add hcontent rfl

/-- The kind of a section keeps a state sound. -/
theorem Inside.Sound.section {next : Inside} {opened : Position} (h : state.Sound)
    (hnext : section? state opened token = some next) : next.Sound := by
  rw [section?] at hnext
  split at hnext <;> cases hnext
  · exact h
  · exact h.refocus (by simp [Focus.Sound]) rfl
  · exact h.enter opened
  · exact h.refocus (by simp [Focus.Sound]) rfl

/-- A token between two titles keeps a state sound. -/
theorem Inside.Sound.head {next : Inside} {part : OpenHead} (h : state.Sound)
    (hpart : ∀ title ∈ part.titles.toList, title.Shaped IsPiece)
    (hnext : head? file state part token = some next) : next.Sound := by
  rw [head?] at hnext
  split at hnext <;> cases hnext
  · exact h
  · exact h.refocus hpart rfl
  · exact h.add hpart rfl

/-- A token within a title keeps a state sound. -/
theorem Inside.Sound.title {next : Inside} {part : OpenHead} {opened : Position}
    {parts : Array String} (h : state.Sound) (hwritable : token.lexeme.Writable)
    (hpart : ∀ title ∈ part.titles.toList, title.Shaped IsPiece)
    (hparts : ∀ s ∈ parts.toList, IsPiece s)
    (hnext : title? file state part opened parts token = some next) : next.Sound := by
  rw [title?] at hnext
  split at hnext <;> cases hnext
  · exact h
  · next content hlexeme =>
      have hcontent := isPiece_of_writable hwritable (.inl hlexeme)
      exact h.refocus ⟨hpart, forall_mem_push hparts hcontent⟩ rfl
  · next content hlexeme =>
      have hcontent := isPiece_of_writable hwritable (.inr hlexeme)
      exact h.refocus ⟨hpart, forall_mem_push hparts hcontent⟩ rfl
  · have htitle : Joined IsPiece " " (joined " " parts) := joined_isPiece (by simp) hparts
    exact h.refocus (forall_mem_push hpart htitle) rfl

/-- A token between two items keeps a state sound. -/
theorem Inside.Sound.list {next : Inside} {part : OpenList} (h : state.Sound)
    (hpart : ∀ item ∈ part.items.toList, item.Shaped IsPiece)
    (hnext : list? file state part token = some next) : next.Sound := by
  rw [list?] at hnext
  split at hnext <;> cases hnext
  · exact h
  · exact h.refocus hpart rfl
  · exact h.add hpart rfl

/-- One sound piece more keeps a run sound. -/
theorem OpenRun.Sound.push {run : OpenRun} {piece : Inline} (h : run.Sound)
    (hpiece : piece.Shaped IsPiece) : (run.push piece).Sound :=
  ⟨forall_mem_push h.1 hpiece, h.2⟩

/-- Closing a sound run keeps a state sound. -/
theorem Inside.Sound.closeRun {run : OpenRun} (h : state.Sound) (hrun : run.Sound) :
    (closeRun file state run token).Sound := by
  obtain ⟨host, pieces⟩ := run
  cases host with
  | emphasis opened style => exact h.add hrun.1 rfl
  | item list opened =>
      have hitems := hrun.2 list opened rfl
      exact h.refocus (forall_mem_push hitems hrun.1) rfl

/-- A token within a run keeps a state sound. -/
theorem Inside.Sound.run {next : Inside} {run : OpenRun} (h : state.Sound)
    (hwritable : token.lexeme.Writable) (hrun : run.Sound)
    (hnext : run? file state run token = some next) : next.Sound := by
  rw [run?] at hnext
  split at hnext <;> cases hnext
  · next content hlexeme =>
      have hcontent := isPiece_of_writable hwritable (.inl hlexeme)
      exact h.refocus (hrun.push hcontent) rfl
  · next content hlexeme =>
      have hcontent := isPiece_of_writable hwritable (.inr hlexeme)
      exact h.refocus (hrun.push hcontent) rfl
  · exact h.refocus (by simpa [Focus.Sound] using hrun) rfl
  · exact h.closeRun hrun

/-- Closing a reference keeps a state sound. -/
theorem Inside.Sound.closeReference {host : Option OpenRun} {span : Span} {name : String}
    (h : state.Sound) (hhost : ∀ run ∈ host, run.Sound) (hname : IsName name) :
    (closeReference state host (.reference span name)).Sound := by
  cases host with
  | some run => exact h.refocus ((hhost run rfl).push hname) rfl
  | none => exact h.add hname rfl

/-- A token within an assignment keeps a state sound, if the assignment follows a declaration where
it has to. -/
theorem Inside.Sound.assignment {next : Inside} {opened : Position} {parts : Array String}
    (h : state.Sound) (hwritable : token.lexeme.Writable) (hparts : ∀ s ∈ parts.toList, IsPiece s)
    (hready : state.outer = [] → state.block.Declared)
    (hnext : assignment? file state opened parts token = some next) : next.Sound := by
  -- Within the value the focus stays on the assignment, so the declaration before it still counts.
  have hfocus (parts : Array String) (hparts : ∀ s ∈ parts.toList, IsPiece s) :
      (state.focusing (.assignment opened parts)).Sound := by
    refine h.focusing hparts ?_
    rintro (hcontent | ⟨houter, -⟩)
    · cases hcontent
    · exact hready houter
  rw [assignment?] at hnext
  split at hnext <;> cases hnext
  · next content hlexeme =>
      have hcontent := isPiece_of_writable hwritable (.inl hlexeme)
      exact hfocus _ (forall_mem_push hparts hcontent)
  · next content hlexeme =>
      have hcontent := isPiece_of_writable hwritable (.inr hlexeme)
      exact hfocus _ (forall_mem_push hparts hcontent)
  · exact h.assign _ (joined_isPiece (by simp) hparts) hready

/-- The keyword of a styled node keeps a state sound. -/
theorem Inside.Sound.style {next : Inside} {opened : Position} (h : state.Sound)
    (hnext : style? file state opened token = some next) : next.Sound := by
  rw [style?] at hnext
  split at hnext <;> cases hnext
  · exact h.add trivial rfl
  · exact h.refocus (by simp [Focus.Sound]) rfl
  · exact h.refocus (by simp [Focus.Sound]) rfl
  · exact h.refocus (by simp [Focus.Sound, OpenRun.Sound]) rfl
  · exact h.refocus (by simp [Focus.Sound, OpenRun.Sound]) rfl

/-- A token within an address keeps a state sound. -/
theorem Inside.Sound.media {next : Inside} {opened : Position} {kind : Media}
    {parts : Array String} (h : state.Sound) (hwritable : token.lexeme.Writable)
    (hparts : ∀ s ∈ parts.toList, IsPiece s)
    (hnext : media? file state opened kind parts token = some next) : next.Sound := by
  rw [media?] at hnext
  split at hnext <;> cases hnext
  · exact h
  · next content hlexeme =>
      have hcontent := isPiece_of_writable hwritable (.inl hlexeme)
      exact h.refocus (forall_mem_push hparts hcontent) rfl
  · next content hlexeme =>
      have hcontent := isPiece_of_writable hwritable (.inr hlexeme)
      exact h.refocus (forall_mem_push hparts hcontent) rfl
  · exact h.add (joined_isPiece (by simp) hparts) rfl

/-- A state of the reader whose nodes are as those of a well-made document. -/
def State.Sound : State → Prop
  | before => True
  | inside state => state.Sound
  | after document => document.WellMade IsPiece IsPiece

/-- A token between two nodes of the document keeps a state sound. -/
theorem Inside.Sound.topLevel {declared : Bool} {next : State} (h : state.Sound)
    (hwritable : token.lexeme.Writable) (houter : state.outer = [])
    (hready : declared = true → state.block.Declared)
    (hnext : topLevel? file state declared token = some next) : next.Sound := by
  rw [topLevel?] at hnext
  split at hnext <;> cases hnext
  · exact h
  · -- The last word closes the outermost block, whose nodes are those of the document.
    have hmarks := h.named
    have hpaired := h.paired
    rw [Inside.marks_eq, houter] at hmarks
    rw [Inside.outermost, houter] at hpaired
    exact ⟨h.shaped _ List.mem_cons_self, hpaired, hmarks⟩
  · cases declared with
    | true => exact h.focusing (by simp [Focus.Sound]) fun _ => hready rfl
    -- Where no declaration stands right before it, the word is dropped.
    | false => exact h.refocus trivial rfl
  · next content hlexeme => exact h.text (isPiece_of_writable hwritable (.inl hlexeme))
  · next content hlexeme => exact h.text (isPiece_of_writable hwritable (.inr hlexeme))
  · exact h.text (isPiece_spelling _)
  · cases hopening : opening? state token with
    | some next => exact h.opening hopening
    | none => exact h.refocus trivial rfl

/-- A token between two nodes of a paragraf keeps a state sound. -/
theorem Inside.Sound.nested {around : Block} {outer : List Block} {next : State} (h : state.Sound)
    (hwritable : token.lexeme.Writable) (houter : state.outer = around :: outer)
    (hnext : nested? file state around outer token = some next) : next.Sound := by
  rw [nested?] at hnext
  split at hnext
  · cases hnext
    exact h
  · cases hnext
    exact h.leave _ houter
  · cases hnext
    -- In a paragraf an assignment needs no declaration before it.
    refine h.focusing (by simp [Focus.Sound]) ?_
    rintro (hready | ⟨hnil, -⟩)
    · cases hready
    · rw [Inside.focusing, houter] at hnil
      cases hnil
  · next content hlexeme =>
      cases hnext
      exact h.text (isPiece_of_writable hwritable (.inl hlexeme))
  · next content hlexeme =>
      cases hnext
      exact h.text (isPiece_of_writable hwritable (.inr hlexeme))
  · obtain ⟨inside, hopening, rfl⟩ := Option.map_eq_some_iff.mp hnext
    exact h.opening hopening

/-- A step inside the document on a writable lexeme keeps a state sound. -/
theorem Inside.Sound.next {next : State} (h : state.Sound) (hwritable : token.lexeme.Writable)
    (hnext : state.next? file token = some next) : next.Sound := by
  have hfocus := h.focus
  rw [Inside.next?] at hnext
  -- One case for each construct, in the order of the definition.
  split at hnext
  case h_1 declared hcontent =>
    split at hnext
    · next houter =>
        refine h.topLevel hwritable houter ?_ hnext
        rintro rfl
        exact h.ready (.inl hcontent)
    · next houter => exact h.nested hwritable houter hnext
  case h_2 opened _ =>
    obtain ⟨inside, hinside, rfl⟩ := Option.map_eq_some_iff.mp hnext
    exact h.section hinside
  case h_3 part hpart =>
    obtain ⟨inside, hinside, rfl⟩ := Option.map_eq_some_iff.mp hnext
    rw [hpart] at hfocus
    exact h.head hfocus hinside
  case h_4 part opened hpart =>
    rw [hpart] at hfocus
    split at hnext <;> cases hnext
    exact h.refocus ⟨hfocus, by simp⟩ rfl
  case h_5 part opened parts hpart =>
    obtain ⟨inside, hinside, rfl⟩ := Option.map_eq_some_iff.mp hnext
    rw [hpart] at hfocus
    exact h.title hwritable hfocus.1 hfocus.2 hinside
  case h_6 part hpart =>
    obtain ⟨inside, hinside, rfl⟩ := Option.map_eq_some_iff.mp hnext
    rw [hpart] at hfocus
    exact h.list hfocus hinside
  case h_7 part opened hpart =>
    rw [hpart] at hfocus
    split at hnext <;> cases hnext
    refine h.refocus ⟨by simp, ?_⟩ rfl
    rintro list opened hhost
    cases hhost
    exact hfocus
  case h_8 run hrun =>
    obtain ⟨inside, hinside, rfl⟩ := Option.map_eq_some_iff.mp hnext
    rw [hrun] at hfocus
    exact h.run hwritable hfocus hinside
  case h_9 host opened hhost =>
    rw [hhost] at hfocus
    split at hnext <;> cases hnext
    next name hlexeme =>
      rw [hlexeme] at hwritable
      exact h.refocus ⟨hfocus, hwritable⟩ rfl
  case h_10 host opened name hhost =>
    rw [hhost] at hfocus
    split at hnext <;> cases hnext
    exact h.closeReference hfocus.1 hfocus.2
  case h_11 opened _ =>
    split at hnext <;> cases hnext
    next name hlexeme =>
      rw [hlexeme] at hwritable
      exact h.declare file opened token hwritable
  case h_12 opened parts hparts =>
    obtain ⟨inside, hinside, rfl⟩ := Option.map_eq_some_iff.mp hnext
    rw [hparts] at hfocus
    have hready (houter : state.outer = []) : state.block.Declared :=
      h.ready (.inr ⟨houter, opened, parts, hparts⟩)
    exact h.assignment hwritable hfocus hready hinside
  case h_13 opened _ =>
    obtain ⟨inside, hinside, rfl⟩ := Option.map_eq_some_iff.mp hnext
    exact h.style hinside
  case h_14 opened kind parts hparts =>
    obtain ⟨inside, hinside, rfl⟩ := Option.map_eq_some_iff.mp hnext
    rw [hparts] at hfocus
    exact h.media hwritable hfocus hinside

/-- A step of the reader on a writable lexeme keeps a state sound. -/
theorem State.Sound.next {state next : State} (h : state.Sound) (hwritable : token.lexeme.Writable)
    (hnext : state.next? file token = some next) : next.Sound := by
  cases state with
  | before =>
      rw [State.next?] at hnext
      split at hnext <;> cases hnext
      exact ⟨by simp, Node.paired_nil, Mark.named_nil, rfl, trivial,
        fun hready => absurd hready (Inside.not_ready rfl)⟩
  | inside state => exact Inside.Sound.next h hwritable hnext
  | after document =>
      rw [State.next?] at hnext
      split at hnext <;> cases hnext
      exact h

end Step

/-- Reading writable lexemes keeps a state sound. -/
theorem State.Sound.run {state last : State} {lexemes : List Lexeme} (h : state.Sound)
    (hwritable : ∀ lexeme ∈ lexemes, lexeme.Writable) (hrun : state.run? lexemes = some last) :
    last.Sound := by
  induction lexemes generalizing state with
  | nil =>
      cases hrun
      exact h
  | cons lexeme lexemes ih =>
      rw [State.run?_cons] at hrun
      obtain ⟨next, hnext, hrun⟩ := Option.bind_eq_some_iff.mp hrun
      have hsound : next.Sound := State.Sound.next h (hwritable lexeme List.mem_cons_self) hnext
      exact ih hsound (fun other hother => hwritable other (List.mem_cons_of_mem lexeme hother))
        hrun

end Reader

open Reader

/-- Every document that is read is well made. -/
theorem Source.wellMade_of_document {source : Source} {document : Document}
    (h : source.document = .ok document) : document.WellMade IsPiece IsPiece := by
  obtain ⟨lexemes, hwritable, hrun⟩ :=
    (Source.exists_document_iff document.bare).mp ⟨source, document, h, rfl⟩
  have hbefore : State.before.Sound := trivial
  exact document.wellMade_bare.mp (hbefore.run hwritable hrun)

end LolMarkup
