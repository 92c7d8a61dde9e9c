import LolMarkup.Document.Reader
import Mathlib

/-!
# The control of the reader

Whether the reader takes a token depends on the construct it is in and on the number of open
paragrafs, and not on what it has read so far. `Control` is a state of the reader without anything
else, and `Control.next?` its step. `State.control_next?` shows that the control of the reader steps
in this way, so that `State.read_ok_iff` can say which lists of tokens are read to the end without
mentioning documents, positions or spans.
-/

namespace LolMarkup

namespace Reader

/-- What a run will become when it is closed. -/
inductive Host where
  | emphasis
  | item
deriving DecidableEq, Repr

/-- The construct in whose middle the reader is. -/
inductive Place where
  | content (declared : Bool)
  | sectionKind
  | head
  | titleKeyword
  | title
  | list
  | itemKeyword
  | run (host : Host)
  | referenceName (host : Option Host)
  | referenceEnd (host : Option Host)
  | declaration
  | assignment
  | style
  | media
deriving DecidableEq, Repr

/-- The state of the reader without the data it gathers. The depth is the number of open
paragrafs. -/
inductive Control where
  | before
  | inside (place : Place) (depth : Nat)
  | after
deriving DecidableEq, Repr

/-- The place after a construct that may stand in a run. -/
def Place.resume : Option Host → Place
  | none => content false
  | some host => run host

/-- The place after a run. -/
def Place.close : Host → Place
  | .emphasis => content false
  | .item => list

/-- The place after a lexeme that neither opens nor closes a paragraf. -/
def Place.next? (nested : Bool) : Place → Lexeme → Option Place
  | content declared, .newline => some (content declared)
  | content _, .text _ => some (content false)
  | content _, .name _ => some (content false)
  | content _, .keyword _ => if nested then none else some (content false)
  | content _, .hashWord .maek => some sectionKind
  | content _, .hashWord .iHaz => some declaration
  | content _, .hashWord .lemmeSee => some (referenceName none)
  | content _, .hashWord .gimmeh => some style
  | content declared, .hashWord .itIz =>
      some (if nested || declared then assignment else content false)
  | content _, .hashWord .kthxbye => none
  | content _, .hashWord _ => if nested then none else some (content false)
  | sectionKind, .newline => some sectionKind
  | sectionKind, .keyword .head => some head
  | sectionKind, .keyword .list => some list
  | head, .newline => some head
  | head, .hashWord .gimmeh => some titleKeyword
  | head, .hashWord .oic => some (content false)
  | titleKeyword, .keyword .title => some title
  | title, .newline => some title
  | title, .text _ => some title
  | title, .name _ => some title
  | title, .hashWord .mkay => some head
  | list, .newline => some list
  | list, .hashWord .gimmeh => some itemKeyword
  | list, .hashWord .oic => some (content false)
  | itemKeyword, .keyword .item => some (run .item)
  | run host, .text _ => some (run host)
  | run host, .name _ => some (run host)
  | run host, .hashWord .lemmeSee => some (referenceName (some host))
  | run host, .hashWord .mkay => some (close host)
  | referenceName host, .name _ => some (referenceEnd host)
  | referenceEnd host, .hashWord .mkay => some (resume host)
  | declaration, .name _ => some (content true)
  | assignment, .text _ => some assignment
  | assignment, .name _ => some assignment
  | assignment, .hashWord .mkay => some (content false)
  | style, .keyword .newline => some (content false)
  | style, .keyword .soundz => some media
  | style, .keyword .vidz => some media
  | style, .keyword .bold => some (run .emphasis)
  | style, .keyword .italics => some (run .emphasis)
  | media, .newline => some media
  | media, .text _ => some media
  | media, .name _ => some media
  | media, .hashWord .mkay => some (content false)
  | _, _ => none

/-- The control after a lexeme, or nothing if the lexeme is refused. -/
def Control.next? : Control → Lexeme → Option Control
  | before, .hashWord .hai => some (inside (.content false) 0)
  | inside (.content _) 0, .hashWord .kthxbye => some after
  | inside (.content _) (depth + 1), .hashWord .oic => some (inside (.content false) depth)
  | inside .sectionKind depth, .keyword .paragraf => some (inside (.content false) (depth + 1))
  | inside place depth, lexeme => (place.next? (depth != 0) lexeme).map (inside · depth)
  | after, .newline => some after
  | _, _ => none

/-- The ways in which the control changes. -/
inductive Control.Move : Control → Lexeme → Control → Prop where
  | start : Move before (.hashWord .hai) (inside (.content false) 0)
  | finish (declared) : Move (inside (.content declared) 0) (.hashWord .kthxbye) after
  | leave (declared depth) :
      Move (inside (.content declared) (depth + 1)) (.hashWord .oic) (inside (.content false) depth)
  | enter (depth) :
      Move (inside .sectionKind depth) (.keyword .paragraf) (inside (.content false) (depth + 1))
  | within (place next : Place) (depth lexeme) :
      place.next? (depth != 0) lexeme = some next →
        Move (inside place depth) lexeme (inside next depth)
  | trail : Move after .newline after

/-- Every change of the control is one of these moves. -/
theorem Control.move_of_next? {control next : Control} {lexeme : Lexeme}
    (h : control.next? lexeme = some next) : Move control lexeme next := by
  unfold next? at h
  split at h
  case h_5 =>
    obtain ⟨next, hnext, rfl⟩ := Option.map_eq_some_iff.mp h
    exact .within _ next _ _ hnext
  all_goals cases h
  · exact .start
  · exact .finish _
  · exact .leave _ _
  · exact .enter _
  · exact .trail

/-- The host of a run that is still being read. -/
def OpenRun.kind (run : OpenRun) : Host :=
  match run.host with
  | .emphasis _ _ => .emphasis
  | .item _ _ => .item

/-- The place of a focus. -/
def Focus.place : Focus → Place
  | content declared => .content declared
  | sectionKind _ => .sectionKind
  | head _ => .head
  | titleKeyword _ _ => .titleKeyword
  | title _ _ _ => .title
  | list _ => .list
  | itemKeyword _ _ => .itemKeyword
  | .run host => .run host.kind
  | referenceName host _ => .referenceName (host.map OpenRun.kind)
  | referenceEnd host _ _ => .referenceEnd (host.map OpenRun.kind)
  | declaration _ => .declaration
  | assignment _ _ => .assignment
  | style _ => .style
  | media _ _ _ => .media

/-- The control of a state. -/
def State.control : State → Control
  | before => .before
  | inside state => .inside state.focus.place state.outer.length
  | after _ => .after

/-! ## The reader steps as its control does -/

/-- The control of a state inside a document changes as the state does. -/
theorem Inside.control_next? (file : String) (state : Inside) (token : Token) :
    (state.next? file token).map State.control =
      (State.inside state).control.next? token.lexeme := by
  obtain ⟨pending, block, outer, focus⟩ := state
  obtain ⟨lexeme, start, stop⟩ := token
  cases focus with
  | content declared =>
      -- What is dropped here depends on the block, and at the top also on the declaration.
      cases outer with
      | nil =>
          rcases lexeme with word | _ | _ | _ | _ | _
          · cases word <;> cases declared <;> rfl
          all_goals rfl
      | cons around outer =>
          rcases lexeme with word | _ | _ | _ | _ | _
          · cases word <;> rfl
          all_goals rfl
  | run run =>
      obtain ⟨host, pieces⟩ := run
      rcases lexeme with word | _ | _ | _ | _ | _
      · cases word <;> cases host <;> rfl
      all_goals rfl
  | referenceEnd host opened name =>
      rcases lexeme with word | _ | _ | _ | _ | _
      · cases word <;> cases host <;> rfl
      all_goals rfl
  | _ =>
      rcases lexeme with word | word | _ | _ | _ | _
      · cases word <;> rfl
      · cases word <;> rfl
      all_goals rfl

/-- The control of the next state is the next control. -/
theorem State.control_next? (file : String) (state : State) (token : Token) :
    (state.next? file token).map State.control = state.control.next? token.lexeme := by
  cases state with
  | before =>
      obtain ⟨lexeme, start, stop⟩ := token
      rcases lexeme with word | _ | _ | _ | _ | _
      · cases word <;> rfl
      all_goals rfl
  | inside state => exact state.control_next? file token
  | after document =>
      obtain ⟨lexeme, start, stop⟩ := token
      cases lexeme <;> rfl

/-- The control after a list of lexemes. -/
def Control.run? (control : Control) (lexemes : List Lexeme) : Option Control :=
  lexemes.foldlM next? control

/-- Without lexemes the control stays as it is. -/
@[simp] theorem Control.run?_nil (control : Control) : control.run? [] = some control := rfl

/-- The first lexeme is taken before the others. -/
@[simp] theorem Control.run?_cons (control : Control) (lexeme : Lexeme) (lexemes : List Lexeme) :
    control.run? (lexeme :: lexemes) = (control.next? lexeme).bind (·.run? lexemes) :=
  List.foldlM_cons

/-- Lexemes that follow one another are taken one after another. -/
theorem Control.run?_append (control : Control) (front back : List Lexeme) :
    control.run? (front ++ back) = (control.run? front).bind (·.run? back) :=
  List.foldlM_append

/-- A document is complete exactly after its last word. -/
theorem State.finish_ok_iff (state : State) (position : Position) :
    (∃ document, state.finish position = .ok document) ↔ state.control = .after := by
  cases state <;> simp [finish, control]

/-- The tokens of a scan that ends without a fault have a document exactly if their lexemes lead
the control to the end. -/
theorem State.read_ok_iff (file : String) (state : State) (position : Position)
    (tokens : List Token) :
    (∃ document, state.read file (.endOfInput position) tokens = .ok document) ↔
      state.control.run? (tokens.map Token.lexeme) = some .after := by
  induction tokens generalizing state with
  | nil =>
      rw [List.map_nil, Control.run?_nil, Option.some.injEq, ← state.finish_ok_iff position, read]
      cases state.finish position <;> simp [Except.mapError]
  | cons token rest ih =>
      rw [List.map_cons, Control.run?_cons, ← state.control_next? file token, read]
      cases state.next? file token with
      | none => simp
      | some next => exact ih next

end Reader

end LolMarkup
