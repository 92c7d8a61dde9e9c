import LolMarkup.Proofs.Reading.Bare
import LolMarkup.Proofs.Reading.Parts

/-!
# What a step of the reader depends on

A construct is read the same wherever it stands. `State.unnamed` erases the names of assignments,
the one thing that a construct takes from what stands before it, and erasing them commutes with
reading (`Inside.unnamed_next?`). `Inside.onto` lets a state stand on the blocks of another one, and
as long as a construct is open in the state, the blocks under it do not matter
(`Inside.next?_onto`).
-/

namespace LolMarkup

/-! ## Without the names of assignments -/

mutual

/-- A node without the names of the assignments in it. -/
def Node.unnamed : Node → Node
  | .paragraf span children => .paragraf span (Node.unnamedAll children)
  | .assignment span _ value => .assignment span none value
  | node => node

/-- Nodes without the names of the assignments in them. -/
def Node.unnamedAll : List Node → List Node
  | [] => []
  | node :: rest => node.unnamed :: Node.unnamedAll rest

end

/-- Nodes lose the names of their assignments one by one. -/
@[simp] theorem Node.unnamedAll_eq_map (nodes : List Node) :
    Node.unnamedAll nodes = nodes.map Node.unnamed := by
  induction nodes with
  | nil => rfl
  | cons node rest ih => rw [Node.unnamedAll, ih, List.map_cons]

mutual

/-- There are no names left to lose. -/
@[simp] theorem Node.unnamed_unnamed (node : Node) : node.unnamed.unnamed = node.unnamed := by
  cases node with
  | paragraf span children =>
      rw [Node.unnamed, Node.unnamed, Node.unnamedAll_unnamedAll children]
  | _ => rfl

/-- There are no names left to lose in nodes. -/
theorem Node.unnamedAll_unnamedAll (nodes : List Node) :
    Node.unnamedAll (Node.unnamedAll nodes) = Node.unnamedAll nodes := by
  cases nodes with
  | nil => rfl
  | cons node rest =>
      rw [Node.unnamedAll, Node.unnamedAll, node.unnamed_unnamed, Node.unnamedAll_unnamedAll rest]

end

/-- Removing names twice is removing them once. -/
@[simp] theorem Node.unnamed_comp_unnamed : Node.unnamed ∘ Node.unnamed = Node.unnamed :=
  funext Node.unnamed_unnamed

mutual

/-- The names of assignments are not written in them. -/
@[simp] theorem Node.part_unnamed (node : Node) : node.unnamed.part = node.part := by
  cases node with
  | paragraf span children =>
      rw [Node.unnamed, Node.part, Node.partAll_unnamedAll children, Node.part]
  | _ => rfl

/-- The parts of nodes do not depend on the names of assignments. -/
theorem Node.partAll_unnamedAll (nodes : List Node) :
    Node.partAll (Node.unnamedAll nodes) = Node.partAll nodes := by
  cases nodes with
  | nil => rfl
  | cons node rest =>
      rw [Node.unnamedAll, Node.partAll, node.part_unnamed, Node.partAll_unnamedAll rest,
        Node.partAll]

end

mutual

/-- Spans and names are removed in any order. -/
theorem Node.bare_unnamed (node : Node) : node.unnamed.bare = node.bare.unnamed := by
  cases node with
  | paragraf span children =>
      rw [Node.unnamed, Node.bare, Node.bareAll_unnamedAll children, Node.bare, Node.unnamed]
  | _ => rfl

/-- Spans and names of nodes are removed in any order. -/
theorem Node.bareAll_unnamedAll (nodes : List Node) :
    Node.bareAll (Node.unnamedAll nodes) = Node.unnamedAll (Node.bareAll nodes) := by
  cases nodes with
  | nil => rfl
  | cons node rest =>
      rw [Node.unnamedAll, Node.bareAll, node.bare_unnamed, Node.bareAll_unnamedAll rest,
        Node.bareAll, Node.unnamedAll]

end

namespace Reader

/-- A block without the names of assignments. -/
def Block.unnamed (block : Block) : Block :=
  { block with children := block.children.map Node.unnamed }

/-- A state inside a document without the names of assignments, the one that waits for a value
included. -/
def Inside.unnamed (state : Inside) : Inside :=
  ⟨none, state.block.unnamed, state.outer.map Block.unnamed, state.focus⟩

/-- A state without the names of assignments. -/
def State.unnamed : State → State
  | before => .before
  | inside state => .inside state.unnamed
  | after document => .after { document with children := Node.unnamedAll document.children }

/-- The names of assignments are not in the construct that is being read. -/
@[simp] theorem Inside.focus_unnamed (state : Inside) : state.unnamed.focus = state.focus := rfl

/-- Removing names closes no blocks. -/
@[simp] theorem Inside.length_outer_unnamed (state : Inside) :
    state.unnamed.outer.length = state.outer.length :=
  List.length_map _

section Unnamed

attribute [local simp] Node.unnamed Block.unnamed Inside.unnamed State.unnamed Inside.focusing
  Inside.add

/-- What a token does between two nodes of the document does not depend on names. -/
theorem unnamed_topLevel? (file : String) (state : Inside) (declared : Bool) (token : Token) :
    (topLevel? file state declared token).map State.unnamed =
      (topLevel? file state.unnamed declared token).map State.unnamed := by
  obtain ⟨lexeme, start, stop⟩ := token
  rcases lexeme with word | _ | _ | _ | _ | _
  · cases word <;> cases declared <;> simp [topLevel?, opening?]
  all_goals simp [topLevel?]

/-- What a token does between two nodes of a paragraf does not depend on names. -/
theorem unnamed_nested? (file : String) (state : Inside) (around : Block) (outer : List Block)
    (token : Token) :
    (nested? file state around outer token).map State.unnamed =
      (nested? file state.unnamed around.unnamed (outer.map Block.unnamed) token).map
        State.unnamed := by
  obtain ⟨lexeme, start, stop⟩ := token
  rcases lexeme with word | _ | _ | _ | _ | _
  · cases word <;> simp [nested?, opening?]
  all_goals simp [nested?, opening?]

/-- Erasing the names of assignments commutes with a step of the reader. -/
theorem Inside.unnamed_next? (file : String) (state : Inside) (token : Token) :
    (state.next? file token).map State.unnamed =
      (state.unnamed.next? file token).map State.unnamed := by
  obtain ⟨pending, block, outer, focus⟩ := state
  obtain ⟨lexeme, start, stop⟩ := token
  cases focus with
  | content declared =>
      cases outer with
      | nil => exact unnamed_topLevel? file _ declared _
      | cons around outer => exact unnamed_nested? file _ around outer _
  | run part =>
      obtain ⟨host, pieces⟩ := part
      rcases lexeme with word | _ | _ | _ | _ | _
      · cases word <;> cases host <;> simp [Inside.next?, run?, closeRun]
      all_goals simp [Inside.next?, run?]
  | referenceEnd host opened name =>
      cases host <;> simp [Inside.next?, closeReference, apply_ite]
  | _ =>
      rcases lexeme with word | word | _ | _ | _ | _
      · cases word <;>
          simp [Inside.next?, section?, head?, title?, list?, assignment?, style?, media?]
      · cases word <;>
          simp [Inside.next?, section?, head?, title?, list?, assignment?, style?, media?]
      all_goals simp [Inside.next?, section?, head?, title?, list?, assignment?, style?, media?,
        declare]

end Unnamed

/-! ## On other blocks -/

/-- A block that goes on with the nodes of another one. -/
def Block.join (block other : Block) : Block :=
  { block with children := block.children ++ other.children }

/-- The blocks of a state on other blocks: the outermost one goes on with the first of these. -/
def Block.onto (around : Block) (rest : List Block) : List Block → List Block
  | [] => rest
  | [base] => around.join base :: rest
  | block :: base :: outer => block :: Block.onto around rest (base :: outer)

/-- A state inside a document on the blocks of another one. -/
def Inside.onto (state : Inside) (around : Block) (rest : List Block) : Inside :=
  match state.outer with
  | [] => { state with block := around.join state.block, outer := rest }
  | _ :: _ => { state with outer := around.onto rest state.outer }

/-- A state on the blocks of another one. -/
def State.onto (around : Block) (rest : List Block) : State → State
  | before => .before
  | inside state => .inside (state.onto around rest)
  | after document => .after document

/-- Some construct is open in the document. -/
def Inside.Busy (state : Inside) : Prop :=
  state.outer = [] → ∀ declared, state.focus ≠ .content declared

section Onto

variable (state : Inside) (around : Block) (rest : List Block)

/-- The blocks of a state on other blocks are its blocks on these. -/
theorem Inside.blocks_onto :
    (state.onto around rest).block :: (state.onto around rest).outer =
      around.onto rest (state.block :: state.outer) := by
  obtain ⟨pending, block, outer, focus⟩ := state
  cases outer <;> rfl

/-- The outermost block of a state and the first of the blocks below it become one. -/
theorem Block.length_onto (block : Block) (outer : List Block) :
    (around.onto rest (block :: outer)).length = outer.length + 1 + rest.length := by
  induction outer generalizing block with
  | nil => simp [Block.onto, Nat.add_comm]
  | cons base outer ih => rw [Block.onto, List.length_cons, ih, List.length_cons]; omega

/-- The blocks around the innermost one are those of the state and those below. -/
@[simp] theorem Inside.length_outer_onto :
    (state.onto around rest).outer.length = state.outer.length + rest.length := by
  have hlength := congrArg List.length (state.blocks_onto around rest)
  rw [Block.length_onto, List.length_cons] at hlength
  omega

/-- The construct that is being read stays the same on other blocks. -/
@[simp] theorem Inside.focus_onto : (state.onto around rest).focus = state.focus := by
  obtain ⟨pending, block, outer, focus⟩ := state
  cases outer <;> rfl

/-- The name that waits for a value stays the same on other blocks. -/
@[simp] theorem Inside.pending_onto : (state.onto around rest).pending = state.pending := by
  obtain ⟨pending, block, outer, focus⟩ := state
  cases outer <;> rfl

/-- Turning to another construct is the same on other blocks. -/
@[simp] theorem Inside.onto_focusing (focus : Focus) :
    (state.focusing focus).onto around rest = (state.onto around rest).focusing focus := by
  obtain ⟨pending, block, outer, _⟩ := state
  cases outer <;> rfl

/-- A node is added in the same way on other blocks. -/
@[simp] theorem Inside.onto_add (node : Node) :
    (state.add node).onto around rest = (state.onto around rest).add node := by
  obtain ⟨pending, block, outer, _⟩ := state
  cases outer with
  | nil => simp [Inside.add, Inside.onto, Block.join]
  | cons base outer => rfl

/-- The name that waits for a value is set in the same way on other blocks. -/
@[simp] theorem Inside.onto_pending (pending : Option String) :
    Inside.onto { state with pending } around rest =
      { state.onto around rest with pending } := by
  obtain ⟨_, block, outer, focus⟩ := state
  cases outer <;> rfl

/-- A name is declared in the same way on other blocks. -/
@[simp] theorem onto_declare (file : String) (opened : Position) (token : Token) (name : String) :
    (declare file state opened token name).onto around rest =
      declare file (state.onto around rest) opened token name := by
  obtain ⟨pending, block, outer, focus⟩ := state
  cases outer with
  | nil => simp [declare, Inside.add, Inside.onto, Block.join]
  | cons base outer => rfl

/-- The kind of a section is taken in the same way on other blocks. -/
theorem section?_onto (opened : Position) (token : Token) :
    (section? (state.onto around rest) opened token) =
      (section? state opened token).map (·.onto around rest) := by
  have henter : Inside.onto
      ⟨state.pending, ⟨opened, #[]⟩, state.block :: state.outer, .content false⟩ around rest =
        ⟨state.pending, ⟨opened, #[]⟩, around.onto rest (state.block :: state.outer),
          .content false⟩ := rfl
  obtain ⟨lexeme, start, stop⟩ := token
  rcases lexeme with _ | word | _ | _ | _ | _
  · simp [section?]
  · cases word <;> simp [section?, henter, Inside.blocks_onto]
  all_goals simp [section?]

/-- The end of a paragraf adds a node to the block around it, also where that is the outermost. -/
theorem nested?_onto (file : String) {base : Block} {outer : List Block} (token : Token)
    (houter : state.outer = base :: outer) :
    ∃ below others, (state.onto around rest).outer = below :: others ∧
      nested? file (state.onto around rest) below others token =
        (nested? file state base outer token).map (State.onto around rest) := by
  obtain ⟨pending, block, _, focus⟩ := state
  cases houter
  have hblocks := Inside.blocks_onto ⟨pending, base, outer, focus⟩ around rest
  refine ⟨_, _, hblocks.symm, ?_⟩
  obtain ⟨lexeme, start, stop⟩ := token
  rcases lexeme with word | _ | _ | _ | _ | _
  · cases word with
    | oic =>
        have hadd := Inside.onto_add ⟨pending, base, outer, focus⟩ around rest
        simp only [nested?, Option.map_some, State.onto, hadd]
        cases outer <;> rfl
    | _ => simp [nested?, opening?, State.onto]
  all_goals simp [nested?, opening?, State.onto]

/-- While a construct is open, the blocks under the state do not matter to a step. -/
theorem Inside.next?_onto {state : Inside} (h : state.Busy) (file : String) (token : Token) :
    (state.onto around rest).next? file token =
      (state.next? file token).map (State.onto around rest) := by
  cases hfocus : state.focus with
  | content declared =>
      cases houter : state.outer with
      | nil => exact absurd hfocus (h houter declared)
      | cons base outer =>
          obtain ⟨below, others, hbelow, hnested⟩ :=
            nested?_onto state around rest file token houter
          simp only [Inside.next?, focus_onto, hfocus, houter, hbelow, hnested]
  | sectionKind opened =>
      simp only [Inside.next?, focus_onto, hfocus, section?_onto, Option.map_map]
      rfl
  | run part =>
      obtain ⟨lexeme, start, stop⟩ := token
      obtain ⟨host, pieces⟩ := part
      rcases lexeme with word | _ | _ | _ | _ | _
      · cases word <;> cases host <;> simp [Inside.next?, hfocus, run?, closeRun, State.onto]
      all_goals simp [Inside.next?, hfocus, run?, State.onto]
  | referenceEnd host opened name =>
      cases host <;> simp [Inside.next?, hfocus, closeReference, State.onto, apply_ite]
  | _ =>
      obtain ⟨lexeme, start, stop⟩ := token
      rcases lexeme with word | word | _ | _ | _ | _
      · cases word <;>
          simp [Inside.next?, hfocus, head?, title?, list?, assignment?, style?, media?, State.onto]
      · cases word <;>
          simp [Inside.next?, hfocus, head?, title?, list?, assignment?, style?, media?, State.onto]
      all_goals simp [Inside.next?, hfocus, head?, title?, list?, assignment?, style?, media?,
        State.onto]

end Onto

end Reader

end LolMarkup
