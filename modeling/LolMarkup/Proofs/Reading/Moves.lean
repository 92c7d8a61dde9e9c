import LolMarkup.Proofs.Reading.Parts

/-!
# The steps of the reader as moves

Every step of the reader is one of the moves on the constructs that are open
(`State.move_of_next?`), with one lemma for each function of the reader. Therefore what holds of the
empty stack and is kept by all moves holds of every document that is read
(`Source.kept_of_document`).
-/

namespace LolMarkup

namespace Reader

/-! ## Parts that are read -/

/-- A node that is added to a block is a part that is added. -/
theorem Block.stack_push (block : Block) (outer : List Block) (node : Node) :
    Block.stack { block with children := block.children.push node } outer =
      (block.stack outer).add node.part := by
  cases outer <;> simp [Block.stack, Stack.add]

/-- A node that is read is a part of the innermost block. -/
theorem Inside.stack_add (state : Inside) (node : Node) :
    (state.add node).stack = (state.block.stack state.outer).add node.part :=
  state.block.stack_push state.outer node

/-- A title that is added to a head is a part that is added. -/
theorem OpenHead.stack_push (head : OpenHead) (base : Stack) (title : Title) :
    OpenHead.stack { head with titles := head.titles.push title } base =
      (head.stack base).add title.part := by
  simp [OpenHead.stack, Stack.add]

/-- An item that is added to a list is a part that is added. -/
theorem OpenList.stack_push (list : OpenList) (base : Stack) (item : Item) :
    OpenList.stack { list with items := list.items.push item } base =
      (list.stack base).add item.part := by
  simp [OpenList.stack, Stack.add]

/-- A piece that is added to a run is a part that is added. -/
theorem OpenRun.stack_push (run : OpenRun) (base : Stack) (piece : Inline) :
    (run.push piece).stack base = (run.stack base).add piece.part := by
  obtain ⟨host, pieces⟩ := run
  cases host <;> simp [OpenRun.stack, OpenRun.push, Stack.add]

/-- Joining with a blank separator leaves what is not blank. -/
theorem solid_joined {separator : String} (h : Text.solid separator = []) (parts : Array String) :
    Text.solid (joined separator parts) = Text.solid (String.join parts.toList) := by
  rw [joined, Text.solid_trimmed, Text.solid_intercalate h]

/-! ## One step -/

section Step

variable {file : String} {due : Bool} {token : Token} {next : Inside} {pending : Option String}
  {block : Block} {outer : List Block} {opened : Position} {parts : Array String}

/-- Free text and names are said as they are. -/
theorem said?_of_plain {content : String}
    (h : token.lexeme = .text content ∨ token.lexeme = .name content) :
    token.lexeme.said? due = some content := by
  rcases h with h | h <;> rw [h] <;> rfl

/-- Hash words say nothing. -/
theorem said?_of_hashWord {word : HashWord} (h : token.lexeme = .hashWord word) :
    token.lexeme.said? due = none := by
  rw [h]
  rfl

/-- A keyword says nothing where a kind is due. -/
theorem said?_of_kind {word : Keyword} (h : token.lexeme = .keyword word) :
    token.lexeme.said? true = none := by
  rw [h]
  rfl

/-- Newlines say nothing. -/
theorem said?_of_newline (h : token.lexeme = .newline) : token.lexeme.said? due = none := by
  rw [h]
  rfl

/-- A newline is passed over, since no construct ends with one. -/
theorem move_newline {stack : Stack} (h : token.lexeme = .newline) :
    Stack.Move file due token stack stack := by
  refine .pass _ (said?_of_newline h) ?_
  rw [h]
  cases stack with
  | root parts => rfl
  | level first _ _ _ _ => cases first <;> rfl

/-- A hash word that starts nothing between two nodes of the document is passed over, unless it is
the last word of the document. -/
theorem move_stray {word : HashWord} (h : token.lexeme = .hashWord word) (hword : word ≠ .kthxbye) :
    Stack.Move file due token (block.stack []) (block.stack []) := by
  refine .pass _ (said?_of_hashWord h) ?_
  rw [h]
  cases word with
  | kthxbye => exact absurd rfl hword
  | _ => rfl

/-- The kind of a construct is passed over, if the construct does not end with it. -/
theorem move_kind {stack : Stack} {word : Keyword} (h : token.lexeme = .keyword word)
    (hends : stack.endedBy (.keyword word) = false) : Stack.Move file true token stack stack := by
  refine .pass _ (said?_of_kind h) ?_
  rwa [h]

/-- A text or a name within a construct is gathered, unless the construct ends with a name. -/
theorem move_gather {first : HashWord} {base : Stack} {content : String} (hfirst : first ≠ .iHaz)
    (h : token.lexeme = .text content ∨ token.lexeme = .name content) :
    Stack.Move file due token (.level first opened parts.toList [] base)
      (.level first opened (parts.push content).toList [] base) := by
  rw [Array.toList_push]
  refine .gather _ _ _ _ _ (said?_of_plain h) ?_
  rcases h with h | h
  · rw [h]
    cases first <;> rfl
  · rw [h]
    cases first with
    | iHaz => exact absurd rfl hfirst
    | _ => rfl

/-- A hash word that ends a construct leaves in it what was gathered. -/
theorem move_end {first last : HashWord} {gathered : List String} {children : List Part}
    {base : Stack} {own : String} (hends : first.endedBy (.hashWord last) = true)
    (h : token.lexeme = .hashWord last)
    (hown : Text.solid own = Text.solid (String.join gathered)) :
    Stack.Move file due token (.level first opened gathered children base)
      (base.add ⟨.words first (.hashWord last), own, spanTo file opened token, children⟩) := by
  rw [← h] at hends ⊢
  refine .closes _ _ _ _ _ _ (.inr (said?_of_hashWord h)) ?_ hends
  rw [said?_of_hashWord h, hown, Option.toList_none, List.append_nil]

/-- Text that is said between two nodes is added as a part. -/
theorem move_text {content : String} {focus : Focus} (h : token.lexeme.said? due = some content) :
    Stack.Move file due token (block.stack outer)
      (Inside.add ⟨pending, block, outer, focus⟩
        (.inline (textPiece file token content))).stack := by
  rw [Inside.stack_add]
  exact .text _ _ h

/-- The first word of a construct opens it. -/
theorem move_of_opening? {state : Inside} (h : opening? state token = some next) :
    Stack.Move file due token (state.block.stack state.outer) next.stack := by
  rw [opening?] at h
  split at h <;> cases h
  all_goals exact .opens _ _ ‹_›

/-- Every token that is taken between two nodes of the document is one move. -/
theorem move_of_topLevel? {declared : Bool} {next : State}
    (h : topLevel? file ⟨pending, block, [], .content declared⟩ declared token = some next) :
    Stack.Move file false token (block.stack []) next.stack := by
  rw [topLevel?] at h
  split at h <;> cases h
  · next hlexeme => exact move_newline hlexeme
  · next hlexeme => exact move_end rfl hlexeme rfl
  · next hlexeme =>
      cases declared with
      | true => exact .opens _ _ hlexeme
      | false => exact move_stray hlexeme (by decide)
  · next content hlexeme => exact move_text (said?_of_plain (.inl hlexeme))
  · next content hlexeme => exact move_text (said?_of_plain (.inr hlexeme))
  · next word hlexeme =>
      refine move_text ?_
      rw [hlexeme]
      rfl
  · next word hkthxbye _ hlexeme =>
      cases hopening : opening? ⟨pending, block, [], .content declared⟩ token with
      | some next => exact move_of_opening? hopening
      | none => exact move_stray hlexeme hkthxbye

/-- Every token that is taken between two nodes of a paragraf is one move. -/
theorem move_of_nested? {declared : Bool} {around : Block} {next : State}
    (h : nested? file ⟨pending, block, around :: outer, .content declared⟩ around outer token =
      some next) :
    Stack.Move file false token (block.stack (around :: outer)) next.stack := by
  rw [nested?] at h
  split at h
  · next hlexeme =>
      cases h
      exact move_newline hlexeme
  · next hlexeme =>
      cases h
      show Stack.Move _ _ _ _ (Inside.stack _)
      rw [Inside.stack_add]
      exact move_end rfl hlexeme rfl
  · next hlexeme =>
      cases h
      exact .opens _ _ hlexeme
  · next content hlexeme =>
      cases h
      exact move_text (said?_of_plain (.inl hlexeme))
  · next content hlexeme =>
      cases h
      exact move_text (said?_of_plain (.inr hlexeme))
  · obtain ⟨inside, hopening, rfl⟩ := Option.map_eq_some_iff.mp h
    exact move_of_opening? hopening

/-- The kind of a section is passed over, since the section is open from its first word on. -/
theorem move_of_section?
    (h : section? ⟨pending, block, outer, .sectionKind opened⟩ opened token = some next) :
    Stack.Move file true token (.level .maek opened [] [] (block.stack outer)) next.stack := by
  rw [section?] at h
  split at h <;> cases h
  · next hlexeme => exact move_newline hlexeme
  all_goals exact move_kind ‹_› rfl

/-- A token between two titles is one move. -/
theorem move_of_head? {head : OpenHead}
    (h : head? file ⟨pending, block, outer, .head head⟩ head token = some next) :
    Stack.Move file due token (head.stack (block.stack outer)) next.stack := by
  rw [head?] at h
  split at h <;> cases h
  · next hlexeme => exact move_newline hlexeme
  · next hlexeme => exact .opens _ _ hlexeme
  · next hlexeme =>
      rw [Inside.stack_add]
      exact move_end rfl hlexeme rfl

/-- A token within a title is one move. -/
theorem move_of_title? {head : OpenHead}
    (h : title? file ⟨pending, block, outer, .title head opened parts⟩ head opened parts token =
      some next) :
    Stack.Move file due token
      (.level .gimmeh opened parts.toList [] (head.stack (block.stack outer))) next.stack := by
  rw [title?] at h
  split at h <;> cases h
  · next hlexeme => exact move_newline hlexeme
  · next content hlexeme => exact move_gather (by decide) (.inl hlexeme)
  · next content hlexeme => exact move_gather (by decide) (.inr hlexeme)
  · next hlexeme =>
      show Stack.Move _ _ _ _ (OpenHead.stack _ _)
      rw [OpenHead.stack_push]
      exact move_end rfl hlexeme (solid_joined rfl parts)

/-- A token between two items is one move. -/
theorem move_of_list? {list : OpenList}
    (h : list? file ⟨pending, block, outer, .list list⟩ list token = some next) :
    Stack.Move file due token (list.stack (block.stack outer)) next.stack := by
  rw [list?] at h
  split at h <;> cases h
  · next hlexeme => exact move_newline hlexeme
  · next hlexeme => exact .opens _ _ hlexeme
  · next hlexeme =>
      rw [Inside.stack_add]
      exact move_end rfl hlexeme rfl

/-- A token within a run is one move. -/
theorem move_of_run? {run : OpenRun}
    (h : run? file ⟨pending, block, outer, .run run⟩ run token = some next) :
    Stack.Move file due token (run.stack (block.stack outer)) next.stack := by
  rw [run?] at h
  split at h <;> cases h
  · next content hlexeme =>
      show Stack.Move _ _ _ _ (OpenRun.stack _ _)
      rw [OpenRun.stack_push]
      exact .text _ _ (said?_of_plain (.inl hlexeme))
  · next content hlexeme =>
      show Stack.Move _ _ _ _ (OpenRun.stack _ _)
      rw [OpenRun.stack_push]
      exact .text _ _ (said?_of_plain (.inr hlexeme))
  · next hlexeme => exact .opens _ _ hlexeme
  · next hlexeme =>
      obtain ⟨host, pieces⟩ := run
      cases host with
      | emphasis opened style =>
          rw [closeRun, Inside.stack_add]
          exact move_end rfl hlexeme rfl
      | item list opened =>
          show Stack.Move _ _ _ _ (OpenList.stack _ _)
          rw [OpenList.stack_push]
          exact move_end rfl hlexeme rfl

/-- The closing word of a reference is one move. -/
theorem move_of_closeReference {host : Option OpenRun} {name : String} {focus : Focus}
    (h : token.lexeme = .hashWord .mkay) :
    Stack.Move file due token (.level .lemmeSee opened [name] [] (hosted (block.stack outer) host))
      (closeReference ⟨pending, block, outer, focus⟩ host
        (.reference (spanTo file opened token) name)).stack := by
  cases host with
  | none =>
      rw [closeReference, Inside.stack_add]
      exact move_end rfl h rfl
  | some run =>
      show Stack.Move _ _ _ _ (OpenRun.stack _ _)
      rw [OpenRun.stack_push]
      exact move_end rfl h rfl

/-- The name of a declaration is its last token. -/
theorem move_of_declare {name : String} {focus : Focus} (h : token.lexeme = .name name) :
    Stack.Move file due token (.level .iHaz opened [] [] (block.stack outer))
      (declare file ⟨pending, block, outer, focus⟩ opened token name).stack := by
  have hmove : Stack.Move file due token (.level .iHaz opened [] [] (block.stack outer))
      (Inside.add ⟨pending, block, outer, focus⟩
        (.declaration (spanTo file opened token) name)).stack := by
    rw [Inside.stack_add, Node.part, ← h]
    refine .closes _ _ _ _ _ _ (.inl rfl) ?_ ?_
    · rw [said?_of_plain (.inr h)]
      rfl
    · rw [h]
      rfl
  exact hmove

/-- A token within an assignment is one move. -/
theorem move_of_assignment?
    (h : assignment? file ⟨pending, block, outer, .assignment opened parts⟩ opened parts token =
      some next) :
    Stack.Move file due token (.level .itIz opened parts.toList [] (block.stack outer))
      next.stack := by
  rw [assignment?] at h
  split at h <;> cases h
  · next content hlexeme => exact move_gather (by decide) (.inl hlexeme)
  · next content hlexeme => exact move_gather (by decide) (.inr hlexeme)
  · next hlexeme =>
      have hmove : Stack.Move file due token
          (.level .itIz opened parts.toList [] (block.stack outer))
          (Inside.add ⟨pending, block, outer, .assignment opened parts⟩
            (.assignment (spanTo file opened token) pending (joined "" parts))).stack := by
        rw [Inside.stack_add]
        exact move_end rfl hlexeme (solid_joined rfl parts)
      exact hmove

/-- The keyword of a styled node is one move. -/
theorem move_of_style?
    (h : style? file ⟨pending, block, outer, .style opened⟩ opened token = some next) :
    Stack.Move file true token (.level .gimmeh opened [] [] (block.stack outer)) next.stack := by
  rw [style?] at h
  split at h <;> cases h
  · next hlexeme =>
      -- A line break is over with its kind, which is then its last token.
      rw [Inside.stack_add, Node.part, ← hlexeme]
      refine .closes _ _ _ _ _ _ (.inl rfl) ?_ ?_
      · rw [said?_of_kind hlexeme]
        rfl
      · rw [hlexeme]
        rfl
  all_goals exact move_kind ‹_› rfl

/-- A token within an address is one move. -/
theorem move_of_media? {kind : Media}
    (h : media? file ⟨pending, block, outer, .media opened kind parts⟩ opened kind parts token =
      some next) :
    Stack.Move file due token (.level .gimmeh opened parts.toList [] (block.stack outer))
      next.stack := by
  rw [media?] at h
  split at h <;> cases h
  · next hlexeme => exact move_newline hlexeme
  · next content hlexeme => exact move_gather (by decide) (.inl hlexeme)
  · next content hlexeme => exact move_gather (by decide) (.inr hlexeme)
  · next hlexeme =>
      rw [Inside.stack_add]
      exact move_end rfl hlexeme (solid_joined rfl parts)

/-- A step inside a document is a move. -/
theorem Inside.move_of_next? {state : Inside} {next : State}
    (h : state.next? file token = some next) :
    Stack.Move file state.focus.place.kindDue token state.stack next.stack := by
  obtain ⟨pending, block, outer, focus⟩ := state
  rw [Inside.next?] at h
  cases focus with
  | content declared =>
      cases outer with
      | nil => exact move_of_topLevel? h
      | cons around outer => exact move_of_nested? h
  | sectionKind opened =>
      obtain ⟨inside, hinside, rfl⟩ := Option.map_eq_some_iff.mp h
      exact move_of_section? hinside
  | head head =>
      obtain ⟨inside, hinside, rfl⟩ := Option.map_eq_some_iff.mp h
      exact move_of_head? hinside
  | titleKeyword head opened =>
      dsimp only at h
      split at h <;> cases h
      exact move_kind ‹_› rfl
  | title head opened parts =>
      obtain ⟨inside, hinside, rfl⟩ := Option.map_eq_some_iff.mp h
      exact move_of_title? hinside
  | list list =>
      obtain ⟨inside, hinside, rfl⟩ := Option.map_eq_some_iff.mp h
      exact move_of_list? hinside
  | itemKeyword list opened =>
      dsimp only at h
      split at h <;> cases h
      exact move_kind ‹_› rfl
  | run run =>
      obtain ⟨inside, hinside, rfl⟩ := Option.map_eq_some_iff.mp h
      exact move_of_run? hinside
  | referenceName host opened =>
      dsimp only at h
      split at h <;> cases h
      next name hlexeme =>
        refine .gather _ _ _ _ _ (said?_of_plain (.inr hlexeme)) ?_
        rw [hlexeme]
        rfl
  | referenceEnd host opened name =>
      dsimp only at h
      split at h <;> cases h
      exact move_of_closeReference ‹_›
  | declaration opened =>
      dsimp only at h
      split at h <;> cases h
      exact move_of_declare ‹_›
  | assignment opened parts =>
      obtain ⟨inside, hinside, rfl⟩ := Option.map_eq_some_iff.mp h
      exact move_of_assignment? hinside
  | style opened =>
      obtain ⟨inside, hinside, rfl⟩ := Option.map_eq_some_iff.mp h
      exact move_of_style? hinside
  | media opened kind parts =>
      obtain ⟨inside, hinside, rfl⟩ := Option.map_eq_some_iff.mp h
      exact move_of_media? hinside

/-- Every step of the reader is a move. -/
theorem State.move_of_next? {state next : State} (h : state.next? file token = some next) :
    Stack.Move file state.control.kindDue token state.stack next.stack := by
  cases state with
  | before =>
      rw [State.next?] at h
      split at h <;> cases h
      exact .opens _ _ ‹_›
  | inside state => exact Inside.move_of_next? h
  | after document =>
      rw [State.next?] at h
      split at h <;> cases h
      exact move_newline ‹_›

end Step

/-! ## The whole document -/

/-- What holds of a state after some tokens and is kept by every step holds when all tokens are
read. -/
theorem State.kept_of_read {file : String} {holds : List Token → State → Prop} {tokens : List Token}
    (hstep : ∀ before token after state next, tokens = before ++ token :: after →
      holds before state → state.next? file token = some next → holds (before ++ [token]) next)
    {before rest : List Token} {state : State} {ending : Ending} {document : Document}
    (htokens : tokens = before ++ rest) (hstate : holds before state)
    (hread : state.read file ending rest = .ok document) : holds tokens (.after document) := by
  induction rest generalizing before state with
  | nil =>
      rw [List.append_nil] at htokens
      cases ending with
      | fault error => cases hread
      | endOfInput position =>
          cases state with
          | after last =>
              cases hread
              rw [htokens]
              exact hstate
          | before | inside => cases hread
  | cons token rest ih =>
      rw [State.read] at hread
      cases hnext : state.next? file token with
      | none =>
          rw [hnext] at hread
          cases hread
      | some next =>
          rw [hnext] at hread
          refine ih ?_ (hstep before token rest state next htokens hstate hnext) hread
          rw [htokens, List.append_assoc, List.singleton_append]

end Reader

open Reader

/-- What holds before the first token and is kept by every step holds of the document of a source
after all its tokens. -/
theorem Source.kept_of_document {source : Source} {document : Document}
    (holds : List Token → State → Prop) (hstart : holds [] .before)
    (hstep : ∀ before token after state next, source.scan.tokens = before ++ token :: after →
      holds before state → state.next? source.path token = some next →
        holds (before ++ [token]) next)
    (h : source.document = .ok document) : holds source.scan.tokens (.after document) := by
  rw [Source.document, Source.read] at h
  cases hread : State.before.read source.path source.scan.ending source.scan.tokens with
  | error e =>
      rw [hread] at h
      cases h
  | ok found =>
      rw [hread] at h
      cases h
      exact State.kept_of_read hstep (List.nil_append _).symm hstart hread

end LolMarkup
