import LolMarkup.Document.Reader
import LolMarkup.Proofs.Lexing.Tiling

/-!
# Reading tokens on demand

A `Supply` hands out tokens one at a time, and `Supply.read` is the reader that asks it for the next
token only when it has taken the one before. The characters of a text are a supply, which cuts off
one token whenever it is asked, and so is a finished list of tokens. `Supply.read_lexer` shows that
a source is read as if its tokens were cut off on demand, and `Supply.read_finished` that a source
without lexical errors is read as if they had all been cut off before. `document_of_tokenize` states
both, and what becomes of a lexical error.
-/

namespace LolMarkup

namespace Reader

/-- A supply of tokens. Asking it gives a token and what is left of the supply, which is smaller
before the end of the input is reached, or a lexical error. -/
structure Supply (σ : Type) where
  next : σ → Except LexicalError (Token × σ)
  size : σ → Nat
  size_lt {s rest : σ} {token : Token} :
    next s = .ok (token, rest) → token.lexeme ≠ .eof → size rest < size s

/-- The document that is complete when the token of the end of the input is read. -/
def State.finishAt (state : State) (token : Token) : Except ReadError Document :=
  match state with
  | .after document => .ok document
  | state => .error (.refused ⟨state.expectation, token⟩)

/-- At the end of the input the reader finishes as it does at its position. -/
theorem State.finishAt_atEnd (state : State) (position : Position) :
    state.finishAt (.atEnd position) = (state.finish position).mapError .refused := by
  cases state <;> rfl

namespace Supply

variable {σ : Type} (supply : Supply σ) (file : String)

/-- Read tokens from a supply, asking for each one when the one before is taken. -/
def read (state : State) (s : σ) : Except ReadError Document :=
  match _ : supply.next s with
  | .error error => .error (.lexical error)
  | .ok (token, rest) =>
      if _ : token.lexeme = .eof then state.finishAt token
      else
        match state.next? file token with
        | some next => read next rest
        | none => .error (.refused ⟨state.expectation, token⟩)
termination_by supply.size s
decreasing_by exact supply.size_lt ‹_› ‹_›

variable {supply file} {state : State} {s : σ}

/-- A lexical error ends reading. -/
theorem read_of_error {error : LexicalError} (h : supply.next s = .error error) :
    supply.read file state s = .error (.lexical error) := by
  rw [read]
  split <;> simp_all

/-- The end of the input finishes reading. -/
theorem read_of_eof {token : Token} {rest : σ} (h : supply.next s = .ok (token, rest))
    (heof : token.lexeme = .eof) : supply.read file state s = state.finishAt token := by
  rw [read]
  split <;> simp_all

/-- Any other token is taken or refused by the state. -/
theorem read_of_token {token : Token} {rest : σ} (h : supply.next s = .ok (token, rest))
    (heof : token.lexeme ≠ .eof) :
    supply.read file state s =
      match state.next? file token with
      | some next => supply.read file next rest
      | none => .error (.refused ⟨state.expectation, token⟩) := by
  rw [read]
  split <;> simp_all

/-- What is read from a supply depends only on what it hands out next. -/
theorem read_congr {s t : σ} (h : supply.next s = supply.next t) :
    supply.read file state s = supply.read file state t := by
  cases ht : supply.next t with
  | error error => rw [read_of_error (h.trans ht), read_of_error ht]
  | ok pair =>
      obtain ⟨token, rest⟩ := pair
      by_cases heof : token.lexeme = .eof
      · rw [read_of_eof (h.trans ht) heof, read_of_eof ht heof]
      · rw [read_of_token (h.trans ht) heof, read_of_token ht heof]

end Supply

/-! ## A finished list of tokens -/

/-- A list of tokens hands out its members in order, and after them the end of the input. -/
def Supply.finished : Supply (List Token) where
  next
    | [] => .ok (.atEnd .origin, [])
    | token :: rest => .ok (token, rest)
  size := List.length
  size_lt {s rest token} h heof := by
    cases s with
    | nil =>
        cases h
        exact absurd rfl heof
    | cons first tokens =>
        cases h
        exact Nat.lt_succ_self _

/-- Reading the tokens of a scan up to the end of the input is reading the finished list. -/
theorem Supply.read_finished {file : String} {state : State} {tokens : List Token}
    {position : Position} (h : ∀ token ∈ tokens, token.lexeme ≠ .eof) :
    state.read file (.endOfInput position) tokens =
      finished.read file state (tokens ++ [.atEnd position]) := by
  induction tokens generalizing state with
  | nil => rw [List.nil_append, read_of_eof rfl rfl, State.finishAt_atEnd, State.read]
  | cons token tokens ih =>
      have hrest : ∀ other ∈ tokens, other.lexeme ≠ .eof :=
        fun other hmem => h other (List.mem_cons_of_mem token hmem)
      rw [List.cons_append, read_of_token rfl (h token (by simp)), State.read]
      cases state.next? file token with
      | none => rfl
      | some next => exact ih hrest

/-! ## Cutting tokens off a text -/

/-- A place in a text: the position reached and the characters that follow. -/
structure Cursor where
  position : Position
  rest : List Char

namespace Cursor

/-- The place before a text. -/
def start (cs : List Char) : Cursor := ⟨.origin, cs⟩

/-- Cut off the next token. Gaps in front of it are passed over. -/
def next : Cursor → Except LexicalError (Token × Cursor)
  | ⟨position, []⟩ => .ok (.atEnd position, ⟨position, []⟩)
  | ⟨position, c :: cs⟩ =>
      match _ : Segment.first c cs with
      | .error fault => .error ⟨fault, position⟩
      | .ok segment =>
          let after := ⟨position.after segment.chars, (c :: cs).drop segment.chars.length⟩
          match segment.lexeme with
          | some lexeme => .ok (⟨lexeme, position, after.position⟩, after)
          | none => next after
termination_by cursor => cursor.rest.length
decreasing_by
  obtain ⟨tail, htail, -⟩ := Segment.isPrefix_first ‹Segment.first c cs = .ok segment›
  simp only [htail, List.length_drop, List.length_cons]
  omega

variable {position : Position} {c : Char} {cs chars after : List Char}

/-- After the last character there is the end of the input. -/
theorem next_nil : next ⟨position, []⟩ = .ok (.atEnd position, ⟨position, []⟩) := by
  rw [next]

/-- A fault in front is a lexical error where it stands. -/
theorem next_of_error {fault : Fault} (h : Segment.first c cs = .error fault) :
    next ⟨position, c :: cs⟩ = .error ⟨fault, position⟩ := by
  rw [next]
  split <;> simp_all

/-- A gap in front is passed over. -/
theorem next_of_gap (h : Segment.first c cs = .ok ⟨chars, none⟩) (hcs : c :: cs = chars ++ after) :
    next ⟨position, c :: cs⟩ = next ⟨position.after chars, after⟩ := by
  have hrest : (c :: cs).drop chars.length = after := by rw [hcs, List.drop_left]
  conv => lhs; rw [next]
  split
  · simp_all
  next segment hsegment =>
      cases h.symm.trans hsegment
      simp only [hrest]

/-- A lexeme in front is cut off as a token. -/
theorem next_of_lexeme {lexeme : Lexeme} (h : Segment.first c cs = .ok ⟨chars, some lexeme⟩)
    (hcs : c :: cs = chars ++ after) :
    next ⟨position, c :: cs⟩ =
      .ok (⟨lexeme, position, position.after chars⟩, ⟨position.after chars, after⟩) := by
  have hrest : (c :: cs).drop chars.length = after := by rw [hcs, List.drop_left]
  rw [next]
  split
  · simp_all
  next segment hsegment =>
      cases h.symm.trans hsegment
      simp only [hrest]

/-- One cursor is further on in the text than another. -/
def Advances (cursor rest : Cursor) : Prop :=
  ∃ passed, passed ≠ [] ∧ cursor.rest = passed ++ rest.rest ∧
    rest.position = cursor.position.after passed

/-- Every token before the end of the input takes characters off the text. -/
theorem advances_of_next {cursor rest : Cursor} {token : Token}
    (h : cursor.next = .ok (token, rest)) (heof : token.lexeme ≠ .eof) :
    cursor.Advances rest := by
  obtain ⟨position, cs⟩ := cursor
  induction cs using Segmentation.ofChars_induction generalizing position with
  | nil =>
      rw [next_nil] at h
      cases h
      exact absurd rfl heof
  | fault c cs fault hfirst =>
      rw [next_of_error hfirst] at h
      cases h
  | segment c cs segment after hfirst hcs hshape ih =>
      cases hshape with
      | gap chars hne hgap =>
          rw [next_of_gap hfirst hcs] at h
          obtain ⟨passed, -, hrest, hposition⟩ := ih _ h
          refine ⟨chars ++ passed, by simp [hne], ?_, ?_⟩
          · rw [List.append_assoc, ← hrest]
            exact hcs
          · rw [hposition, Position.after_append]
      | lexeme chars lexeme hspells =>
          rw [next_of_lexeme hfirst hcs] at h
          cases h
          exact ⟨chars, hspells.ne_nil, hcs, rfl⟩

/-- Cutting off a token leaves a shorter text. -/
theorem length_lt_of_next {cursor rest : Cursor} {token : Token}
    (h : cursor.next = .ok (token, rest)) (heof : token.lexeme ≠ .eof) :
    rest.rest.length < cursor.rest.length := by
  obtain ⟨passed, hne, hrest, -⟩ := advances_of_next h heof
  have hpos := List.length_pos_iff.mpr hne
  rw [hrest, List.length_append]
  omega

end Cursor

/-- A text hands out its tokens as they are cut off. -/
def Supply.lexer : Supply Cursor where
  next := Cursor.next
  size cursor := cursor.rest.length
  size_lt h heof := Cursor.length_lt_of_next h heof

/-- Reading the scan of a text is reading the tokens as they are cut off the text. -/
theorem Supply.read_lexer (file : String) (cs : List Char) (position : Position) (state : State) :
    state.read file (Scan.ofSegmentation position (Segmentation.ofChars cs)).ending
        (Scan.ofSegmentation position (Segmentation.ofChars cs)).tokens =
      lexer.read file state ⟨position, cs⟩ := by
  induction cs using Segmentation.ofChars_induction generalizing position state with
  | nil =>
      rw [read_of_eof Cursor.next_nil rfl, State.finishAt_atEnd]
      rfl
  | fault c cs fault hfirst =>
      rw [read_of_error (Cursor.next_of_error hfirst)]
      rfl
  | segment c cs segment after hfirst hcs hshape ih =>
      cases hshape with
      | gap chars hne hgap =>
          rw [read_congr (Cursor.next_of_gap hfirst hcs)]
          exact ih (position.after chars) state
      | lexeme chars lexeme hspells =>
          have heof : lexeme ≠ .eof := by
            rintro rfl
            cases hspells
          rw [read_of_token (Cursor.next_of_lexeme hfirst hcs) heof]
          show State.read file state _ (_ :: _) = _
          rw [State.read]
          cases state.next? file ⟨lexeme, position, position.after chars⟩ with
          | none => rfl
          | some next => exact ih (position.after chars) next

/-! ## Errors -/

/-- Tokens that end in a fault are read up to the fault or up to a token that is refused. -/
theorem State.read_fault (file : String) (state : State) (error : LexicalError)
    (tokens : List Token) :
    state.read file (.fault error) tokens = .error (.lexical error) ∨
    ∃ token ∈ tokens, ∃ expected,
      state.read file (.fault error) tokens = .error (.refused ⟨expected, token⟩) := by
  induction tokens generalizing state with
  | nil => exact .inl rfl
  | cons token tokens ih =>
      rw [State.read]
      cases state.next? file token with
      | none => exact .inr ⟨token, by simp, _, rfl⟩
      | some next =>
          rcases ih next with hlexical | ⟨refused, hmem, expected, hrefused⟩
          · exact .inl hlexical
          · exact .inr ⟨refused, by simp [hmem], expected, hrefused⟩

/-- Tokens up to the end of the input are read without a lexical error. -/
theorem State.read_endOfInput_ne_lexical (file : String) (state : State) (position : Position)
    (tokens : List Token) (error : LexicalError) :
    state.read file (.endOfInput position) tokens ≠ .error (.lexical error) := by
  induction tokens generalizing state with
  | nil => cases state <;> simp [State.read, State.finish, Except.mapError]
  | cons token tokens ih =>
      rw [State.read]
      cases state.next? file token with
      | none => simp
      | some next => exact ih next

/-- The document read from a supply, or the diagnostic of its first error. -/
def Supply.document {σ : Type} (supply : Supply σ) (path : String) (s : σ) :
    Except Diagnostic Document :=
  (supply.read path .before s).mapError (·.diagnostic path)

end Reader

open Reader

/-- A refusal is diagnosed under one of two codes. -/
theorem SyntaxError.code_diagnostic (file : String) (error : SyntaxError) :
    (error.diagnostic file).code = .malformed ∨ (error.diagnostic file).code = .trailingTokens := by
  obtain ⟨expected, found⟩ := error
  cases expected <;> simp [SyntaxError.diagnostic, Expectation.code]

namespace Source

/-- A diagnostic is a syntax error at a token that was cut off before the place of another one. -/
def RefusedBefore (source : Source) (refusal later : Diagnostic) : Prop :=
  (refusal.code = .malformed ∨ refusal.code = .trailingTokens) ∧
    ∃ token ∈ source.scan.tokens, ∃ position : Position,
      refusal.line = some token.start.line ∧ refusal.column = some token.start.column ∧
      later.line = some position.line ∧ later.column = some position.column ∧
      token.start.Before position

/-- A source is read as if each token were cut off when it is asked for. -/
theorem document_eq_lexer (source : Source) :
    source.document = Supply.lexer.document source.path (.start source.text.toList) := by
  have hread := Supply.read_lexer source.path source.text.toList .origin .before
  exact congrArg (Except.mapError _) hread

/-- A source without lexical errors is read as if its tokens were cut off before. -/
theorem document_eq_finished {source : Source} {tokens : List Token}
    (h : source.tokenize = .ok tokens) :
    source.document = Supply.finished.document source.path tokens := by
  obtain ⟨earlier, last, htokens, -, -, -, hnone⟩ := Lexing.last_token h
  obtain ⟨position, hending, rfl⟩ := tokenize_eq_ok_iff.mp h
  obtain ⟨rfl, -⟩ := List.append_inj' htokens rfl
  unfold document read Supply.document
  rw [hending, Supply.read_finished hnone]

/-- A lexical error is the fault at which the scan ends, as a diagnostic. -/
theorem tokenize_eq_error_iff {source : Source} {d : Diagnostic} :
    source.tokenize = .error d ↔ ∃ error, source.scan.ending = .fault error ∧
      d = error.diagnostic source.path := by
  unfold tokenize Scan.allTokens
  cases source.scan.ending with
  | endOfInput position => simp [Except.mapError]
  | fault error => simp [Except.mapError, eq_comm]

/-- A lexical error is reported, unless a token before it is refused. -/
theorem document_of_tokenize_error {source : Source} {d : Diagnostic}
    (h : source.tokenize = .error d) :
    ∃ e, source.document = .error e ∧ (e = d ∨ source.RefusedBefore e d) := by
  obtain ⟨error, hending, rfl⟩ := tokenize_eq_error_iff.mp h
  unfold document read
  rw [hending]
  rcases State.read_fault source.path .before error source.scan.tokens with
    hlexical | ⟨token, hmem, expected, hrefused⟩
  · exact ⟨error.diagnostic source.path, by rw [hlexical]; rfl, .inl rfl⟩
  · have htiling : Lexing.Tiling [] _ source.scan.tokens source.scan.ending :=
      Scan.tiling source.text.toList
    rw [hending] at htiling
    have hbefore := htiling.before_fault.2 token hmem
    refine ⟨SyntaxError.diagnostic source.path ⟨expected, token⟩, by rw [hrefused]; rfl, .inr ?_⟩
    exact ⟨SyntaxError.code_diagnostic _ _, token, hmem, error.position, rfl, rfl, rfl, rfl,
      hbefore⟩

/-- A source with a document has tokens. -/
theorem exists_tokenize_of_document {source : Source} {document : Document}
    (h : source.document = .ok document) : ∃ tokens, source.tokenize = .ok tokens := by
  cases htokens : source.tokenize with
  | ok tokens => exact ⟨tokens, rfl⟩
  | error d =>
      obtain ⟨e, he, -⟩ := document_of_tokenize_error htokens
      rw [h] at he
      cases he

/-- A source that is scanned to its end is not diagnosed with a lexical error. -/
theorem not_lexical_of_endOfInput {source : Source} {position : Position} {e : Diagnostic}
    (hending : source.scan.ending = .endOfInput position) (h : source.document = .error e) :
    ¬ (e.code = .unknownHashWord ∨ e.code = .unclosedComment) := by
  unfold document read at h
  rw [hending] at h
  cases hread : State.read source.path .before (.endOfInput position) source.scan.tokens with
  | ok document => simp [hread, Except.mapError] at h
  | error reason =>
      cases reason with
      | lexical error => exact absurd hread (State.read_endOfInput_ne_lexical _ _ _ _ _)
      | refused error =>
          rw [hread] at h
          cases h
          have hcode := SyntaxError.code_diagnostic source.path error
          show ¬ ((error.diagnostic source.path).code = .unknownHashWord ∨
            (error.diagnostic source.path).code = .unclosedComment)
          rcases hcode with hcode | hcode <;> simp [hcode]

end Source

/-- Asking for tokens on demand agrees with tokenizing first. -/
theorem document_of_tokenize (source : Source) :
    source.document = Supply.lexer.document source.path (.start source.text.toList) ∧
    (match source.tokenize with
      | .ok tokens => source.document = Supply.finished.document source.path tokens
      | .error d => ∃ e, source.document = .error e ∧ (e = d ∨ source.RefusedBefore e d)) ∧
    (match source.document with
      | .ok _ => ∃ tokens, source.tokenize = .ok tokens
      | .error e => e.code = .unknownHashWord ∨ e.code = .unclosedComment →
          source.tokenize = .error e) := by
  refine ⟨source.document_eq_lexer, ?_, ?_⟩
  · cases h : source.tokenize with
    | ok tokens => exact Source.document_eq_finished h
    | error d => exact Source.document_of_tokenize_error h
  · cases h : source.tokenize with
    | ok tokens =>
        obtain ⟨position, hending, -⟩ := Source.tokenize_eq_ok_iff.mp h
        cases hdocument : source.document with
        | ok document => exact ⟨tokens, rfl⟩
        | error e =>
            intro hcode
            exact absurd hcode (Source.not_lexical_of_endOfInput hending hdocument)
    | error d =>
        obtain ⟨e, hdocument, he⟩ := Source.document_of_tokenize_error h
        rw [hdocument]
        intro hcode
        rcases he with rfl | ⟨hrefused, -⟩
        · rfl
        · rcases hrefused with hrefused | hrefused <;> simp [hrefused] at hcode

/-- A refused token hides the unknown word after it. -/
theorem document_of_tokenize_hidden :
    ∃ d e, (Source.mk "doc.lol" "#HAI #MAEK x\n#NOPE").tokenize = .error d ∧
      (Source.mk "doc.lol" "#HAI #MAEK x\n#NOPE").document = .error e ∧ e ≠ d ∧
      (Source.mk "doc.lol" "#HAI #MAEK x\n#NOPE").RefusedBefore e d := by
  have hd : (Source.mk "doc.lol" "#HAI #MAEK x\n#NOPE").tokenize =
      .error ⟨.unknownHashWord, .error, "Unrecognized hashtag word '#NOPE'", "doc.lol", some 2,
        some 1⟩ := by rfl
  have h := (document_of_tokenize ⟨"doc.lol", "#HAI #MAEK x\n#NOPE"⟩).2.1
  rw [hd] at h
  obtain ⟨e, he, hhidden⟩ := h
  have hcode : e.code = .malformed := by
    have hsame : (Source.mk "doc.lol" "#HAI #MAEK x\n#NOPE").document =
        .error ⟨.malformed, .error, "Expected section type after #MAEK but found identifier 'x'",
          "doc.lol", some 1, some 12⟩ := by rfl
    rw [hsame] at he
    cases he
    rfl
  rcases hhidden with rfl | hhidden
  · simp at hcode
  · refine ⟨_, e, hd, he, ?_, hhidden⟩
    rintro rfl
    simp at hcode

end LolMarkup
