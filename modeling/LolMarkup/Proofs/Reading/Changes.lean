import LolMarkup.Proofs.Image.WellMade
import LolMarkup.Proofs.Reading.Moves

/-!
# The steps of the reader on blocks

`Inside.Change` says what a token can do to the blocks of a state: it starts a node, it goes on with
one, it is a node, it ends a node, or it enters or leaves a paragraf. A token that starts a node or
is one does the same in a fresh document. Every step inside a document is such a change
(`Inside.change_of_next?`), with one lemma for each function of the reader.
-/

namespace LolMarkup

namespace Reader

/-- The state of a document in which nothing is read yet, except that an assignment may follow. -/
def Inside.fresh : Inside :=
  ⟨none, ⟨.origin, #[]⟩, [], .content true⟩

/-- The state is between two nodes of its innermost block. -/
def Inside.Idle (state : Inside) : Prop :=
  ∃ declared, state.focus = .content declared

/-- A block with one more node. -/
def Block.push (block : Block) (node : Node) : Block :=
  { block with children := block.children.push node }

/-- What a token does to the blocks of a state. -/
inductive Inside.Change (file : String) (token : Token) (state : Inside) : State → Prop where
  /-- No node ends and none starts. -/
  | goes (next : Inside) : next.block = state.block → next.outer = state.outer →
      (state.Idle → next.Idle) → Change file token state (.inside next)
  /-- A node starts with a hash word. -/
  | opens (focus : Focus) (word : HashWord) : state.Idle → token.lexeme = .hashWord word →
      fresh.next? file token = some (.inside (fresh.focusing focus)) →
      (fresh.focusing focus).stack = .level word token.start [] [] fresh.stack →
      Change file token state (.inside (state.focusing focus))
  /-- The token is a text between two nodes. -/
  | text (content : String) : state.Idle → token.lexeme.said? false = some content →
      fresh.next? file token = some (.inside (fresh.add (.inline (textPiece file token content)))) →
      Change file token state (.inside (state.add (.inline (textPiece file token content))))
  /-- A node other than a paragraf ends. -/
  | completes (next : Inside) (node : Node) : ¬ state.Idle → node.preorder = [node] →
      next.block = state.block.push node → next.outer = state.outer → next.Idle →
      Change file token state (.inside next)
  /-- The kind of a paragraf. -/
  | enters (opened : Position) : ¬ state.Idle →
      Change file token state
        (.inside ⟨state.pending, ⟨opened, #[]⟩, state.block :: state.outer, .content false⟩)
  /-- A paragraf ends. -/
  | leaves (around : Block) (outer : List Block) : state.Idle → state.outer = around :: outer →
      Change file token state (.inside (Inside.add { state with block := around, outer }
        (.paragraf (spanTo file state.block.opened token) state.block.children.toList)))
  /-- The document ends. -/
  | ends (span : Span) : state.outer = [] →
      Change file token state (.after ⟨span, state.block.children.toList⟩)

section Change

variable {file : String} {token : Token} {state : Inside}

/-- Turning to another construct within a node changes no blocks. -/
theorem Inside.change_focusing (h : ¬ state.Idle) (focus : Focus) :
    state.Change file token (.inside (state.focusing focus)) :=
  .goes _ rfl rfl fun hidle => absurd hidle h

/-- A node that ends without nodes in it is added to the innermost block. -/
theorem Inside.change_add (h : ¬ state.Idle) {node : Node} (hnode : node.preorder = [node]) :
    state.Change file token (.inside (state.add node)) :=
  .completes _ node h hnode rfl rfl ⟨false, rfl⟩

/-- The first word of a node starts it in a fresh document too. -/
theorem change_of_opening? {next : Inside} (hidle : state.Idle)
    (h : opening? state token = some next) : state.Change file token (.inside next) := by
  rw [opening?] at h
  split at h <;> cases h
  all_goals
    refine .opens _ _ hidle ‹_› ?_ rfl
    simp [Inside.next?, Inside.fresh, topLevel?, opening?, *]

/-- Between two nodes the word of assignments starts a node. -/
theorem change_assignment (hidle : state.Idle) (h : token.lexeme = .hashWord .itIz) :
    state.Change file token (.inside (state.focusing (.assignment token.start #[]))) := by
  refine .opens _ _ hidle h ?_ rfl
  simp [Inside.next?, Inside.fresh, topLevel?, h]

/-- Between two nodes plain text is a node of its own. -/
theorem change_plain (hidle : state.Idle) {content : String}
    (h : token.lexeme = .text content ∨ token.lexeme = .name content) :
    state.Change file token (.inside (state.add (.inline (textPiece file token content)))) := by
  refine .text content hidle (said?_of_plain h) ?_
  rcases h with h | h <;> simp [Inside.next?, Inside.fresh, topLevel?, h]

/-- Every token that is taken between two nodes of the document changes the blocks in one of these
ways. -/
theorem change_of_topLevel? {pending : Option String} {block : Block} {declared : Bool}
    {next : State}
    (h : topLevel? file ⟨pending, block, [], .content declared⟩ declared token = some next) :
    Inside.Change file token ⟨pending, block, [], .content declared⟩ next := by
  have hidle : Inside.Idle ⟨pending, block, [], .content declared⟩ := ⟨declared, rfl⟩
  rw [topLevel?] at h
  split at h <;> cases h
  · exact .goes _ rfl rfl id
  · exact .ends _ rfl
  · next hlexeme =>
      cases declared with
      | true => exact change_assignment hidle hlexeme
      | false => exact .goes _ rfl rfl id
  · exact change_plain hidle (.inl ‹_›)
  · exact change_plain hidle (.inr ‹_›)
  · next word hlexeme =>
      refine .text _ hidle ?_ ?_
      · rw [hlexeme]
        rfl
      · simp [Inside.next?, Inside.fresh, topLevel?, hlexeme]
  · cases hopening : opening? ⟨pending, block, [], .content declared⟩ token with
    | some next => exact change_of_opening? hidle hopening
    | none => exact .goes _ rfl rfl fun _ => ⟨false, rfl⟩

/-- Every token that is taken between two nodes of a paragraf changes the blocks in one of these
ways. -/
theorem change_of_nested? {pending : Option String} {block around : Block} {outer : List Block}
    {declared : Bool} {next : State}
    (h : nested? file ⟨pending, block, around :: outer, .content declared⟩ around outer token =
      some next) :
    Inside.Change file token ⟨pending, block, around :: outer, .content declared⟩ next := by
  have hidle : Inside.Idle ⟨pending, block, around :: outer, .content declared⟩ := ⟨declared, rfl⟩
  rw [nested?] at h
  split at h
  · cases h
    exact .goes _ rfl rfl id
  · cases h
    exact .leaves around outer hidle rfl
  · cases h
    exact change_assignment hidle ‹_›
  · cases h
    exact change_plain hidle (.inl ‹_›)
  · cases h
    exact change_plain hidle (.inr ‹_›)
  · obtain ⟨inside, hopening, rfl⟩ := Option.map_eq_some_iff.mp h
    exact change_of_opening? hidle hopening

/-- The kind of a section changes the blocks in one of these ways. -/
theorem change_of_section? {next : Inside} {opened : Position} (hbusy : ¬ state.Idle)
    (h : section? state opened token = some next) : state.Change file token (.inside next) := by
  rw [section?] at h
  split at h <;> cases h
  · exact .goes _ rfl rfl id
  · exact Inside.change_focusing hbusy _
  · exact .enters opened hbusy
  · exact Inside.change_focusing hbusy _

/-- A token between two titles changes the blocks in one of these ways. -/
theorem change_of_head? {next : Inside} {head : OpenHead} (hbusy : ¬ state.Idle)
    (h : head? file state head token = some next) : state.Change file token (.inside next) := by
  rw [head?] at h
  split at h <;> cases h
  · exact .goes _ rfl rfl id
  · exact Inside.change_focusing hbusy _
  · exact Inside.change_add hbusy rfl

/-- A token within a title changes the blocks in one of these ways. -/
theorem change_of_title? {next : Inside} {head : OpenHead} {opened : Position}
    {parts : Array String} (hbusy : ¬ state.Idle)
    (h : title? file state head opened parts token = some next) :
    state.Change file token (.inside next) := by
  rw [title?] at h
  split at h <;> cases h
  · exact .goes _ rfl rfl id
  all_goals exact Inside.change_focusing hbusy _

/-- A token between two items changes the blocks in one of these ways. -/
theorem change_of_list? {next : Inside} {list : OpenList} (hbusy : ¬ state.Idle)
    (h : list? file state list token = some next) : state.Change file token (.inside next) := by
  rw [list?] at h
  split at h <;> cases h
  · exact .goes _ rfl rfl id
  · exact Inside.change_focusing hbusy _
  · exact Inside.change_add hbusy rfl

/-- A token within a run changes the blocks in one of these ways. -/
theorem change_of_run? {next : Inside} {run : OpenRun} (hbusy : ¬ state.Idle)
    (h : run? file state run token = some next) : state.Change file token (.inside next) := by
  rw [run?] at h
  split at h <;> cases h
  case h_4 =>
      rw [closeRun]
      split
      · exact Inside.change_add hbusy rfl
      · exact Inside.change_focusing hbusy _
  all_goals exact Inside.change_focusing hbusy _

/-- Closing a reference changes the blocks in one of these ways. -/
theorem change_of_closeReference {host : Option OpenRun} {span : Span} {name : String}
    (hbusy : ¬ state.Idle) :
    state.Change file token (.inside (closeReference state host (.reference span name))) := by
  cases host with
  | none => exact Inside.change_add hbusy rfl
  | some run => exact Inside.change_focusing hbusy _

/-- A token within an assignment changes the blocks in one of these ways. -/
theorem change_of_assignment? {next : Inside} {opened : Position} {parts : Array String}
    (hbusy : ¬ state.Idle) (h : assignment? file state opened parts token = some next) :
    state.Change file token (.inside next) := by
  rw [assignment?] at h
  split at h <;> cases h
  · exact Inside.change_focusing hbusy _
  · exact Inside.change_focusing hbusy _
  · exact .completes _ _ hbusy rfl rfl rfl ⟨false, rfl⟩

/-- The keyword of a styled node changes the blocks in one of these ways. -/
theorem change_of_style? {next : Inside} {opened : Position} (hbusy : ¬ state.Idle)
    (h : style? file state opened token = some next) : state.Change file token (.inside next) := by
  rw [style?] at h
  split at h <;> cases h
  · exact Inside.change_add hbusy rfl
  all_goals exact Inside.change_focusing hbusy _

/-- A token within an address changes the blocks in one of these ways. -/
theorem change_of_media? {next : Inside} {opened : Position} {kind : Media} {parts : Array String}
    (hbusy : ¬ state.Idle) (h : media? file state opened kind parts token = some next) :
    state.Change file token (.inside next) := by
  rw [media?] at h
  split at h <;> cases h
  · exact .goes _ rfl rfl id
  · exact Inside.change_focusing hbusy _
  · exact Inside.change_focusing hbusy _
  · exact Inside.change_add hbusy rfl

/-- What a step within a node does to the blocks of a state. -/
theorem change_of_busy {next : State} (hbusy : ¬ state.Idle)
    (h : state.next? file token = some next) : state.Change file token next := by
  obtain ⟨pending, block, outer, focus⟩ := state
  rw [Inside.next?] at h
  cases focus with
  | content declared => exact absurd ⟨declared, rfl⟩ hbusy
  | sectionKind opened =>
      obtain ⟨inside, hinside, rfl⟩ := Option.map_eq_some_iff.mp h
      exact change_of_section? hbusy hinside
  | head head =>
      obtain ⟨inside, hinside, rfl⟩ := Option.map_eq_some_iff.mp h
      exact change_of_head? hbusy hinside
  | titleKeyword head opened =>
      dsimp only at h
      split at h <;> cases h
      exact Inside.change_focusing hbusy _
  | title head opened parts =>
      obtain ⟨inside, hinside, rfl⟩ := Option.map_eq_some_iff.mp h
      exact change_of_title? hbusy hinside
  | list list =>
      obtain ⟨inside, hinside, rfl⟩ := Option.map_eq_some_iff.mp h
      exact change_of_list? hbusy hinside
  | itemKeyword list opened =>
      dsimp only at h
      split at h <;> cases h
      exact Inside.change_focusing hbusy _
  | run run =>
      obtain ⟨inside, hinside, rfl⟩ := Option.map_eq_some_iff.mp h
      exact change_of_run? hbusy hinside
  | referenceName host opened =>
      dsimp only at h
      split at h <;> cases h
      exact Inside.change_focusing hbusy _
  | referenceEnd host opened name =>
      dsimp only at h
      split at h <;> cases h
      exact change_of_closeReference hbusy
  | declaration opened =>
      dsimp only at h
      split at h <;> cases h
      exact .completes _ _ hbusy rfl rfl rfl ⟨true, rfl⟩
  | assignment opened parts =>
      obtain ⟨inside, hinside, rfl⟩ := Option.map_eq_some_iff.mp h
      exact change_of_assignment? hbusy hinside
  | style opened =>
      obtain ⟨inside, hinside, rfl⟩ := Option.map_eq_some_iff.mp h
      exact change_of_style? hbusy hinside
  | media opened kind parts =>
      obtain ⟨inside, hinside, rfl⟩ := Option.map_eq_some_iff.mp h
      exact change_of_media? hbusy hinside

/-- What a step does to the blocks of a state. -/
theorem Inside.change_of_next? {next : State} (h : state.next? file token = some next) :
    state.Change file token next := by
  by_cases hidle : state.Idle
  · obtain ⟨pending, block, outer, focus⟩ := state
    obtain ⟨declared, rfl⟩ : ∃ declared, focus = .content declared := hidle
    cases outer with
    | nil => exact change_of_topLevel? h
    | cons around outer => exact change_of_nested? h
  · exact change_of_busy hidle h

end Change

end Reader

end LolMarkup
