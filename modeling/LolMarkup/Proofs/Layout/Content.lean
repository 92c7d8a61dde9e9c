import LolMarkup.Proofs.Reading.Bare
import LolMarkup.Proofs.Scoping.Agreement

/-!
# What a source says, places aside

The tokens, the document and the page of a source without the places where things stand, and the
diagnostics as what they say. All of this follows from the lexemes of the source and from the fault
that ends them (`Source.bareLexemes_eq`, `Source.bareDocument_eq`). For the document several
newlines in a row count as one (`State.outcome_collapsed`), because no state of the reader changes
at a newline that it takes.
-/

namespace LolMarkup

open Reader

/-- What a diagnostic says: its code and its message. -/
def Diagnostic.gist (d : Diagnostic) : Code × String :=
  (d.code, d.message)

namespace Source

/-- The lexemes of a source up to the end of the input, or what its lexical error says. -/
def bareLexemes (source : Source) : Except (Code × String) (List Lexeme) :=
  (source.tokenize.map (List.map Token.lexeme)).mapError Diagnostic.gist

/-- The document of a source without spans, or what its first error says. -/
def bareDocument (source : Source) : Except (Code × String) Document :=
  (source.document.map Document.bare).mapError Diagnostic.gist

/-- The page of a source that has a document, and what the diagnostics of the document say. -/
def barePage (source : Source) : Option (String × List (Code × String)) :=
  source.document.toOption.map fun document =>
    (document.render.html, document.diagnostics.map Diagnostic.gist)

/-- Two sources have the same document without spans or fail with the same message, and they have
the same page with the same messages. -/
structure Agrees (first second : Source) : Prop where
  document : first.bareDocument = second.bareDocument
  page : first.barePage = second.barePage

end Source

/-- A list of lexemes with one newline for each run of newlines. -/
def Lexeme.collapsed : List Lexeme → List Lexeme
  | [] => []
  | lexeme :: rest =>
      if lexeme = .newline ∧ (collapsed rest).head? = some .newline then collapsed rest
      else lexeme :: collapsed rest

/-- A problem without its span. -/
def Problem.bare (problem : Problem) : Problem :=
  { problem with span := .blank }

/-- A rendering whose problems have no spans. -/
def Rendering.bare (rendering : Rendering) : Rendering :=
  ⟨rendering.html, rendering.problems.map Problem.bare⟩

/-! ## Rendering without spans -/

/-- Removing spans goes through renderings that follow one another. -/
@[simp] theorem Rendering.bare_append (first second : Rendering) :
    (first ++ second).bare = first.bare ++ second.bare := by
  show Rendering.mk _ _ = Rendering.mk _ _
  rw [Rendering.problems_append, List.map_append]
  rfl

/-- A piece is rendered in the same way without its span. -/
theorem Inline.render_bare (scopes : Scopes) (piece : Inline) :
    piece.bare.render scopes = (piece.render scopes).bare := by
  cases piece with
  | text span content => rfl
  | reference span name =>
      simp only [Inline.bare, Inline.render]
      cases scopes.lookup name with
      | none => rfl
      | some binding => cases binding <;> rfl

/-- A run is rendered in the same way without its spans. -/
theorem Inline.renderRun_bare (scopes : Scopes) (run : List Inline) :
    Inline.renderRun scopes (run.map Inline.bare) = (Inline.renderRun scopes run).bare := by
  induction run with
  | nil => rfl
  | cons piece run ih =>
      rw [List.map_cons, renderRun_cons, renderRun_cons, ih, Rendering.bare_append,
        Inline.render_bare]

/-- The bullet of an item does not depend on its spans. -/
theorem Item.html_bare (scopes : Scopes) (item : Item) :
    item.bare.html scopes = item.html scopes := by
  unfold Item.html
  rw [Item.bare, Inline.renderRun_bare]
  rfl

mutual

/-- A node is rendered in the same way without spans. -/
theorem Node.render_bare (scopes : Scopes) (node : Node) :
    Node.render scopes node.bare =
      ((Node.render scopes node).1, (Node.render scopes node).2.bare) := by
  cases node with
  | head span titles =>
      simp only [Node.bare, Node.render, List.map_map]
      rfl
  | paragraf span children =>
      rw [Node.bare, Node.render_paragraf, Node.render_paragraf, Node.renderAll_bareAll]
      rfl
  | list span items =>
      simp only [Node.bare, Node.render, List.map_map]
      have hitems : Item.html scopes.push ∘ Item.bare = Item.html scopes.push :=
        funext (Item.html_bare scopes.push)
      rw [hitems]
      rfl
  | declaration span name =>
      simp only [Node.bare, Node.render]
      cases scopes.declare? name <;> rfl
  | assignment span name value =>
      cases name with
      | none => rfl
      | some name =>
          simp only [Node.bare, Node.render]
          cases scopes.assign? name value <;> rfl
  | inline piece =>
      simp only [Node.bare, Node.render]
      rw [Inline.render_bare]
  | emphasis span style children =>
      simp only [Node.bare, Node.render]
      rw [Inline.renderRun_bare]
      rfl
  | lineBreak span => rfl
  | media span kind url => rfl

/-- Nodes that follow one another are rendered in the same way without spans. -/
theorem Node.renderAll_bareAll (scopes : Scopes) (nodes : List Node) :
    Node.renderAll scopes (Node.bareAll nodes) =
      ((Node.renderAll scopes nodes).1, (Node.renderAll scopes nodes).2.bare) := by
  cases nodes with
  | nil => rfl
  | cons node rest =>
      rw [Node.bareAll, Node.renderAll_cons, Node.renderAll_cons, Node.render_bare,
        Node.renderAll_bareAll, Rendering.bare_append]

end

namespace Document

/-- A document is rendered in the same way without its spans. -/
theorem render_bare (document : Document) : document.bare.render = document.render.bare := by
  unfold render
  rw [bare, Node.renderAll_bareAll]
  rfl

/-- The diagnostics of a document say the same without its spans. -/
theorem gist_diagnostics_bare (document : Document) :
    document.bare.diagnostics.map Diagnostic.gist = document.diagnostics.map Diagnostic.gist := by
  rw [diagnostics, diagnostics, render_bare, Rendering.bare, List.map_map, List.map_map,
    List.map_map]
  rfl

end Document

/-- The page of a source follows from its document without spans. -/
theorem Source.barePage_eq (source : Source) :
    source.barePage = source.bareDocument.toOption.map fun document =>
      (document.render.html, document.diagnostics.map Diagnostic.gist) := by
  unfold barePage bareDocument
  cases source.document with
  | error d => rfl
  | ok document =>
      show some _ = some (document.bare.render.html, _)
      rw [document.render_bare, document.gist_diagnostics_bare]
      rfl

/-! ## Reading lexemes -/

/-- The fault with which a scan ends. -/
def Ending.fault? : Ending → Option Fault
  | endOfInput _ => none
  | fault error => some error.fault

namespace Reader

/-- What is expected in the middle of a construct does not depend on spans. -/
theorem Focus.expectation_bare (nested : Bool) (focus : Focus) :
    focus.bare.expectation nested = focus.expectation nested := by
  cases focus <;> rfl

/-- What is expected in a state does not depend on spans. -/
theorem State.expectation_bare (state : State) : state.bare.expectation = state.expectation := by
  cases state with
  | before => rfl
  | after document => rfl
  | inside state =>
      show state.focus.bare.expectation (!(state.outer.map Block.bare).isEmpty) = _
      rw [Focus.expectation_bare, List.isEmpty_map]
      rfl

/-- What is said when a lexeme is refused. -/
def State.refusal (state : State) (lexeme : Lexeme) : Code × String :=
  (state.expectation.code, state.expectation.message lexeme)

/-- What reading lexemes that stand nowhere comes to, if they end with the given fault or with the
end of the input. -/
def State.outcome (state : State) (fault : Option Fault) :
    List Lexeme → Except (Code × String) Document
  | [] =>
      match fault, state with
      | some fault, _ => .error (fault.code, fault.message)
      | none, .after document => .ok document
      | none, state => .error (state.refusal .eof)
  | lexeme :: rest =>
      match state.step? lexeme with
      | some next => next.outcome fault rest
      | none => .error (state.refusal lexeme)

/-- What reading tokens comes to, and what its error says, does not depend on where they stand. -/
theorem State.bare_read (file : String) (state : State) (ending : Ending) (tokens : List Token) :
    ((state.read file ending tokens).map Document.bare).mapError
        (fun error => (error.diagnostic file).gist) =
      state.bare.outcome ending.fault? (tokens.map Token.lexeme) := by
  induction tokens generalizing state with
  | nil =>
      cases ending with
      | fault error => rfl
      | endOfInput position =>
          cases state with
          | before => rfl
          | after document => rfl
          | inside state =>
              show Except.error _ = Except.error _
              rw [State.refusal, State.expectation_bare]
              rfl
  | cons token tokens ih =>
      have hbare := state.bare_next? file token
      rw [List.map_cons, read, outcome, ← hbare]
      cases state.next? file token with
      | none =>
          show Except.error _ = Except.error _
          rw [State.refusal, State.expectation_bare]
          rfl
      | some next => exact ih next

/-- A newline is refused or leaves the reader where it is. -/
theorem State.step?_newline (state : State) :
    state.step? .newline = none ∨ state.step? .newline = some state := by
  cases state with
  | before => exact .inl rfl
  | after document => exact .inr rfl
  | inside state =>
      obtain ⟨pending, block, outer, focus⟩ := state
      cases focus with
      | content declared =>
          right
          cases outer <;> rfl
      | sectionKind | head | title | list | media => exact .inr rfl
      | _ => exact .inl rfl

/-- Reading does not tell one newline from several. -/
theorem State.outcome_collapsed (state : State) (fault : Option Fault) (lexemes : List Lexeme) :
    state.outcome fault (Lexeme.collapsed lexemes) = state.outcome fault lexemes := by
  induction lexemes generalizing state with
  | nil => rfl
  | cons lexeme rest ih =>
      rw [Lexeme.collapsed]
      split
      · next hrun =>
          obtain ⟨rfl, hnext⟩ := hrun
          rcases state.step?_newline with hrefused | htaken
          · obtain ⟨more, hmore⟩ := List.head?_eq_some_iff.mp hnext
            rw [hmore, outcome, outcome, hrefused]
          · rw [ih state]
            conv => rhs; rw [outcome, htaken]
      · rw [outcome, outcome]
        cases state.step? lexeme with
        | none => rfl
        | some next => exact ih next

end Reader

namespace Source

/-- The scan of a source ends with the fault of its segmentation. -/
theorem fault?_ending (source : Source) :
    source.scan.ending.fault? = (Segmentation.ofChars source.text.toList).fault := by
  unfold scan Scan.ofChars Scan.ofSegmentation
  cases (Segmentation.ofChars source.text.toList).fault <;> rfl

/-- The tokens of a source have the lexemes of its segmentation. -/
theorem lexeme_scan (source : Source) :
    source.scan.tokens.map Token.lexeme = (Segmentation.ofChars source.text.toList).lexemes :=
  Scan.map_lexeme_tokens _

/-- The tokens of a source say what its segments do. -/
theorem bareLexemes_eq (source : Source) :
    source.bareLexemes = match (Segmentation.ofChars source.text.toList).fault with
      | none => .ok ((Segmentation.ofChars source.text.toList).lexemes ++ [.eof])
      | some fault => .error (fault.code, fault.message) := by
  rw [← fault?_ending, ← lexeme_scan]
  unfold bareLexemes tokenize Scan.allTokens
  cases source.scan.ending with
  | endOfInput position =>
      show Except.ok _ = Except.ok _
      rw [List.map_append]
      rfl
  | fault error => rfl

/-- The document of a source is read from its lexemes. -/
theorem bareDocument_eq (source : Source) :
    source.bareDocument = State.before.outcome (Segmentation.ofChars source.text.toList).fault
      (Segmentation.ofChars source.text.toList).lexemes := by
  rw [← fault?_ending, ← lexeme_scan]
  have hread := State.bare_read source.path .before source.scan.ending source.scan.tokens
  rw [show State.before.bare = .before from rfl] at hread
  rw [← hread]
  unfold bareDocument document read
  cases State.before.read source.path source.scan.ending source.scan.tokens <;> rfl

/-- Sources with the same fault and, up to runs of newlines, the same lexemes agree. -/
theorem agrees_of_lexemes {first second : Source}
    (hlexemes : Lexeme.collapsed (Segmentation.ofChars first.text.toList).lexemes =
      Lexeme.collapsed (Segmentation.ofChars second.text.toList).lexemes)
    (hfault : (Segmentation.ofChars first.text.toList).fault =
      (Segmentation.ofChars second.text.toList).fault) : first.Agrees second := by
  have hdocument : first.bareDocument = second.bareDocument := by
    rw [bareDocument_eq, bareDocument_eq, hfault, ← State.outcome_collapsed, hlexemes,
      State.outcome_collapsed]
  refine ⟨hdocument, ?_⟩
  rw [barePage_eq, barePage_eq, hdocument]

end Source

end LolMarkup
