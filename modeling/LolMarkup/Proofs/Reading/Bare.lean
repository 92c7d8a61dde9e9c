import LolMarkup.Proofs.Lexing.Writing
import LolMarkup.Proofs.Reading.Refusal

/-!
# Reading without spans

What is read does not depend on where it stands. `Document.bare` is a document whose spans are all
blank, `State.bare` a state of the reader without positions, and `State.step?` the step of the
reader on a lexeme that stands nowhere. Erasing the positions commutes with reading
(`State.bare_next?`), so that `Source.exists_document_iff` can say which documents are read, up to
spans, by looking at lists of writable lexemes alone.
-/

namespace LolMarkup

/-- The span that stands for any span. -/
def Span.blank : Span := ⟨"", .origin, .origin⟩

/-- A piece of a run without its span. -/
def Inline.bare : Inline → Inline
  | text _ content => .text .blank content
  | reference _ name => .reference .blank name

/-- A title without its span. -/
def Title.bare (title : Title) : Title :=
  { title with span := .blank }

/-- An item without spans. -/
def Item.bare (item : Item) : Item :=
  ⟨.blank, item.children.map Inline.bare⟩

mutual

/-- A node without spans. -/
def Node.bare : Node → Node
  | .head _ titles => .head .blank (titles.map Title.bare)
  | .paragraf _ children => .paragraf .blank (Node.bareAll children)
  | .list _ items => .list .blank (items.map Item.bare)
  | .declaration _ name => .declaration .blank name
  | .assignment _ name value => .assignment .blank name value
  | .inline piece => .inline piece.bare
  | .emphasis _ style children => .emphasis .blank style (children.map Inline.bare)
  | .lineBreak _ => .lineBreak .blank
  | .media _ kind url => .media .blank kind url

/-- Nodes without spans. -/
def Node.bareAll : List Node → List Node
  | [] => []
  | node :: rest => node.bare :: Node.bareAll rest

end

/-- A document without spans. -/
def Document.bare (document : Document) : Document :=
  ⟨.blank, Node.bareAll document.children⟩

/-- Nodes lose their spans one by one. -/
@[simp] theorem Node.bareAll_eq_map (nodes : List Node) :
    Node.bareAll nodes = nodes.map Node.bare := by
  induction nodes with
  | nil => rfl
  | cons node rest ih => rw [Node.bareAll, ih, List.map_cons]

namespace Reader

/-- A block without positions. -/
def Block.bare (block : Block) : Block :=
  ⟨.origin, block.children.map Node.bare⟩

/-- An open head without positions. -/
def OpenHead.bare (head : OpenHead) : OpenHead :=
  ⟨.origin, head.titles.map Title.bare⟩

/-- An open list without positions. -/
def OpenList.bare (list : OpenList) : OpenList :=
  ⟨.origin, list.items.map Item.bare⟩

/-- The host of a run without positions. -/
def RunHost.bare : RunHost → RunHost
  | emphasis _ style => .emphasis .origin style
  | item list _ => .item list.bare .origin

/-- An open run without positions. -/
def OpenRun.bare (run : OpenRun) : OpenRun :=
  ⟨run.host.bare, run.pieces.map Inline.bare⟩

/-- A focus without positions. -/
def Focus.bare : Focus → Focus
  | content declared => .content declared
  | sectionKind _ => .sectionKind .origin
  | .head part => .head part.bare
  | titleKeyword part _ => .titleKeyword part.bare .origin
  | title part _ parts => .title part.bare .origin parts
  | .list part => .list part.bare
  | itemKeyword part _ => .itemKeyword part.bare .origin
  | .run part => .run part.bare
  | referenceName host _ => .referenceName (host.map OpenRun.bare) .origin
  | referenceEnd host _ name => .referenceEnd (host.map OpenRun.bare) .origin name
  | declaration _ => .declaration .origin
  | assignment _ parts => .assignment .origin parts
  | style _ => .style .origin
  | media _ kind parts => .media .origin kind parts

/-- A state inside a document without positions. -/
def Inside.bare (state : Inside) : Inside :=
  ⟨state.pending, state.block.bare, state.outer.map Block.bare, state.focus.bare⟩

/-- A state of the reader without positions. -/
def State.bare : State → State
  | before => .before
  | inside state => .inside state.bare
  | after document => .after document.bare

/-- The state after a lexeme that stands nowhere. -/
def State.step? (state : State) (lexeme : Lexeme) : Option State :=
  state.next? "" ⟨lexeme, .origin, .origin⟩

attribute [local simp] Span.blank Inline.bare Title.bare Item.bare Node.bare Document.bare
  Block.bare OpenHead.bare OpenList.bare RunHost.bare OpenRun.bare Focus.bare Inside.bare State.bare
  Inside.focusing Inside.add OpenRun.push spanTo textPiece

/-- What a token does between two nodes of the document does not depend on spans. -/
theorem bare_topLevel? (file : String) (state : Inside) (declared : Bool) (token : Token) :
    (topLevel? file state declared token).map State.bare =
      topLevel? "" state.bare declared ⟨token.lexeme, .origin, .origin⟩ := by
  obtain ⟨lexeme, start, stop⟩ := token
  rcases lexeme with word | _ | _ | _ | _ | _
  · cases word <;> cases declared <;> simp [topLevel?, opening?]
  all_goals simp [topLevel?]

/-- What a token does between two nodes of a paragraf does not depend on spans. -/
theorem bare_nested? (file : String) (state : Inside) (around : Block) (outer : List Block)
    (token : Token) :
    (nested? file state around outer token).map State.bare =
      nested? "" state.bare around.bare (outer.map Block.bare)
        ⟨token.lexeme, .origin, .origin⟩ := by
  obtain ⟨lexeme, start, stop⟩ := token
  rcases lexeme with word | _ | _ | _ | _ | _
  · cases word <;> simp [nested?, opening?]
  all_goals simp [nested?, opening?]

/-- The steps within a construct do not depend on positions. -/
theorem Inside.bare_next? (file : String) (state : Inside) (token : Token) :
    (state.next? file token).map State.bare = (State.inside state).bare.step? token.lexeme := by
  obtain ⟨pending, block, outer, focus⟩ := state
  cases focus with
  | content declared =>
      cases outer with
      | nil => exact bare_topLevel? file _ declared token
      | cons around outer => exact bare_nested? file _ around outer token
  | run part =>
      obtain ⟨lexeme, start, stop⟩ := token
      obtain ⟨host, pieces⟩ := part
      rcases lexeme with word | _ | _ | _ | _ | _
      · cases word <;> cases host <;>
          simp [Inside.next?, State.step?, State.next?, run?, closeRun]
      all_goals simp [Inside.next?, State.step?, State.next?, run?]
  | referenceEnd host opened name =>
      obtain ⟨lexeme, start, stop⟩ := token
      rcases lexeme with word | _ | _ | _ | _ | _
      · cases word <;> cases host <;>
          simp [Inside.next?, State.step?, State.next?, closeReference]
      all_goals simp [Inside.next?, State.step?, State.next?]
  | _ =>
      obtain ⟨lexeme, start, stop⟩ := token
      rcases lexeme with word | word | _ | _ | _ | _
      · cases word <;> simp [Inside.next?, State.step?, State.next?, section?, head?, title?, list?,
          assignment?, style?, media?]
      · cases word <;> simp [Inside.next?, State.step?, State.next?, section?, head?, title?, list?,
          assignment?, style?, media?]
      all_goals simp [Inside.next?, State.step?, State.next?, section?, head?, title?, list?,
        assignment?, style?, media?, declare]

/-- Erasing the positions commutes with a step of the reader. -/
theorem State.bare_next? (file : String) (state : State) (token : Token) :
    (state.next? file token).map State.bare = state.bare.step? token.lexeme := by
  cases state with
  | before =>
      by_cases hword : token.lexeme = .hashWord .hai
      · simp [step?, next?, hword]
      · simp [step?, next?, hword]
  | inside state => exact state.bare_next? file token
  | after document =>
      by_cases hword : token.lexeme = .newline
      · simp [step?, next?, hword]
      · simp [step?, next?, hword]

/-- The state after a list of lexemes that stand nowhere. -/
def State.run? (state : State) (lexemes : List Lexeme) : Option State :=
  lexemes.foldlM step? state

/-- Without lexemes the state stays as it is. -/
@[simp] theorem State.run?_nil (state : State) : state.run? [] = some state := rfl

/-- The first lexeme is taken before the others. -/
theorem State.run?_cons (state : State) (lexeme : Lexeme) (lexemes : List Lexeme) :
    state.run? (lexeme :: lexemes) = (state.step? lexeme).bind (·.run? lexemes) :=
  List.foldlM_cons

/-- Lexemes that follow one another are taken one after another. -/
theorem State.run?_append (state : State) (front back : List Lexeme) :
    state.run? (front ++ back) = (state.run? front).bind (·.run? back) :=
  List.foldlM_append

/-- The document that is read from tokens is, up to spans, the one that their lexemes lead to. -/
theorem State.exists_read_iff (file : String) (state : State) (position : Position)
    (tokens : List Token) (bare : Document) :
    (∃ document, state.read file (.endOfInput position) tokens = .ok document ∧
      document.bare = bare) ↔ state.bare.run? (tokens.map Token.lexeme) = some (.after bare) := by
  induction tokens generalizing state with
  | nil => cases state <;> simp [read, finish, Except.mapError]
  | cons token tokens ih =>
      rw [List.map_cons, run?_cons, ← state.bare_next? file token, read]
      cases state.next? file token with
      | none => simp
      | some next => exact ih next

end Reader

open Reader

/-- The document of a source without faults is, up to spans, the one that its lexemes lead to. -/
theorem Source.exists_bare_iff (source : Source) (bare : Document)
    (hfault : (Segmentation.ofChars source.text.toList).fault = none) :
    (∃ document, source.document = .ok document ∧ document.bare = bare) ↔
      State.before.run? (Segmentation.ofChars source.text.toList).lexemes = some (.after bare) := by
  have hending : ∃ position, source.scan.ending = .endOfInput position := by
    simp [scan, Scan.ofChars, Scan.ofSegmentation, hfault]
  obtain ⟨position, hending⟩ := hending
  rw [← Scan.map_lexeme_tokens]
  refine Iff.trans ?_ (State.exists_read_iff source.path .before position source.scan.tokens bare)
  rw [document, read, hending]
  cases State.before.read source.path (.endOfInput position) source.scan.tokens <;>
    simp [Except.mapError]

/-- A document is read from a text, up to spans, exactly if some writable lexemes lead to it. -/
theorem Source.exists_document_iff (bare : Document) :
    (∃ source : Source, ∃ document, source.document = .ok document ∧ document.bare = bare) ↔
      ∃ lexemes, (∀ lexeme ∈ lexemes, lexeme.Writable) ∧
        State.before.run? lexemes = some (.after bare) := by
  constructor
  · rintro ⟨source, document, hdocument, hbare⟩
    have hfault := ((document_ok_iff_run source).mp ⟨document, hdocument⟩).1
    exact ⟨_, Segmentation.writable_of_lexemes source.text.toList,
      (source.exists_bare_iff bare hfault).mp ⟨document, hdocument, hbare⟩⟩
  · rintro ⟨lexemes, hwritable, hrun⟩
    obtain ⟨hfault, hlexemes⟩ := Segmentation.lexemes_written hwritable
    refine ⟨⟨"", String.ofList (Segmentation.written lexemes)⟩, (exists_bare_iff _ bare ?_).mpr ?_⟩
    · rwa [String.toList_ofList]
    · rwa [String.toList_ofList, hlexemes]

end LolMarkup
