import LolMarkup.Proofs.Lexing.Positions
import LolMarkup.Proofs.Lexing.Writing
import LolMarkup.Proofs.Reading.Control
import LolMarkup.Proofs.Reading.Laziness

/-!
# Where a token is refused

The reader refuses a token exactly where the document can no longer be saved. From every control
there is a way to the end of a document (`Control.run?_completion`), and the text before a token can
go on with any lexemes, since an empty comment separates them from it (`Scan.split_segments`,
`Segmentation.ofChars_resume`). `correct_prefix_of_refusal` puts both together: what stands before
the refused token can be completed, and no text whose tokens start in the same way up to this token
has a document.
-/

namespace LolMarkup

namespace Reader

/-! ## Every control can be completed -/

/-- What is still to be closed after a run. -/
def Host.closing : Host → List Lexeme
  | emphasis => []
  | item => [.hashWord .oic]

/-- Lexemes that lead from a place to the content of the innermost block. -/
def Place.completion : Place → List Lexeme
  | content _ => []
  | sectionKind => [.keyword .head, .hashWord .oic]
  | head => [.hashWord .oic]
  | titleKeyword => [.keyword .title, .hashWord .mkay, .hashWord .oic]
  | title => [.hashWord .mkay, .hashWord .oic]
  | list => [.hashWord .oic]
  | itemKeyword => [.keyword .item, .hashWord .mkay, .hashWord .oic]
  | run host => .hashWord .mkay :: host.closing
  | referenceName none => [.name "x", .hashWord .mkay]
  | referenceName (some host) => .name "x" :: .hashWord .mkay :: .hashWord .mkay :: host.closing
  | referenceEnd none => [.hashWord .mkay]
  | referenceEnd (some host) => .hashWord .mkay :: .hashWord .mkay :: host.closing
  | declaration => [.name "x"]
  | assignment => [.hashWord .mkay]
  | style => [.keyword .newline]
  | media => [.hashWord .mkay]

/-- Lexemes that lead from a control to the end of a document. -/
def Control.completion : Control → List Lexeme
  | before => [.hashWord .hai, .hashWord .kthxbye]
  | inside place depth =>
      place.completion ++ (List.replicate depth (.hashWord .oic) ++ [.hashWord .kthxbye])
  | after => []

/-- The completion of a place leads to the content of the innermost block. -/
theorem Place.run?_completion (place : Place) (depth : Nat) :
    ∃ declared, (Control.inside place depth).run? place.completion =
      some (.inside (.content declared) depth) := by
  cases place with
  | content declared => exact ⟨declared, rfl⟩
  | declaration => exact ⟨true, rfl⟩
  | run host => cases host <;> exact ⟨false, rfl⟩
  | referenceName host | referenceEnd host =>
      rcases host with _ | host
      · exact ⟨false, rfl⟩
      · cases host <;> exact ⟨false, rfl⟩
  | _ => exact ⟨false, rfl⟩

/-- A closing word for every open paragraf and the last word complete the document. -/
theorem Control.run?_closing (declared : Bool) (depth : Nat) :
    (inside (.content declared) depth).run?
      (List.replicate depth (.hashWord .oic) ++ [.hashWord .kthxbye]) = some after := by
  induction depth generalizing declared with
  | zero => rfl
  | succ depth ih =>
      rw [List.replicate_succ, List.cons_append, run?_cons]
      exact ih false

/-- The completion of a control leads to the end. -/
theorem Control.run?_completion (control : Control) :
    control.run? control.completion = some after := by
  cases control with
  | before | after => rfl
  | inside place depth =>
      obtain ⟨declared, hplace⟩ := place.run?_completion depth
      rw [completion, run?_append, hplace]
      exact run?_closing declared depth

/-- The name that completions use can be written. -/
theorem isName_x : Lexing.IsName "x" :=
  ⟨⟨'x', [], rfl, rfl, by simp, by simp [Lexing.Stops]⟩, rfl⟩

/-- The lexemes that complete a place can be written. -/
theorem Place.writable_completion (place : Place) :
    ∀ lexeme ∈ place.completion, lexeme.Writable := by
  rcases place with _ | _ | _ | _ | _ | _ | _ | host | host | host | _ | _ | _ | _
  case run => cases host <;> simp [completion, Host.closing, Lexeme.Writable]
  case referenceName | referenceEnd =>
    rcases host with _ | (_ | _) <;>
      simp [completion, Host.closing, Lexeme.Writable, isName_x]
  all_goals simp [completion, Lexeme.Writable, isName_x]

/-- The lexemes that complete a control can be written. -/
theorem Control.writable_completion (control : Control) :
    ∀ lexeme ∈ control.completion, lexeme.Writable := by
  cases control with
  | before => simp [completion, Lexeme.Writable]
  | after => simp [completion]
  | inside place depth =>
      intro lexeme h
      rw [completion, List.mem_append, List.mem_append] at h
      rcases h with h | h | h
      · exact place.writable_completion lexeme h
      · obtain ⟨-, rfl⟩ := List.mem_replicate.mp h
        simp [Lexeme.Writable]
      · rw [List.mem_singleton] at h
        subst h
        simp [Lexeme.Writable]

end Reader

/-! ## The stream of tokens -/

/-- The token that is handed out at the end of the input. -/
def Ending.stream : Ending → List Token
  | endOfInput position => [.atEnd position]
  | fault _ => []

/-- The tokens of a scan, with the end of the input unless a fault comes first. -/
def Scan.stream (scan : Scan) : List Token :=
  scan.tokens ++ scan.ending.stream

namespace Scan

/-- The token of the first segment, if it has one, is the first of the stream. -/
theorem stream_cons (position : Position) (segment : Segment) (cut : Segmentation) :
    (ofSegmentation position (.cons segment cut)).stream =
      (segment.lexeme.map (⟨·, position, position.after segment.chars⟩)).toList ++
        (ofSegmentation (position.after segment.chars) cut).stream := by
  rw [stream, stream, ← List.append_assoc, ofSegmentation, Segmentation.cons]
  congr 1
  exact placed_cons position segment cut.segments

/-- A token of the stream starts where some of the segments end. -/
theorem split_segments {position : Position} {segments : List Segment} {fault : Option Fault}
    {before after : List Token} {token : Token}
    (h : (ofSegmentation position ⟨segments, fault⟩).stream = before ++ token :: after) :
    ∃ front back, segments = front ++ back ∧ placed position front = before ∧
      token.start = endPosition position front := by
  induction segments generalizing position before with
  | nil =>
      cases fault with
      | none =>
          obtain ⟨rfl, rfl⟩ : before = [] ∧ token = .atEnd position := by
            cases before with
            | nil => exact ⟨rfl, (List.cons.inj h).1.symm⟩
            | cons first before => simp [stream, ofSegmentation, placed, Ending.stream] at h
          exact ⟨[], [], rfl, rfl, rfl⟩
      | some fault => simp [stream, ofSegmentation, placed, Ending.stream] at h
  | cons segment segments ih =>
      rw [show (⟨segment :: segments, fault⟩ : Segmentation) = .cons segment ⟨segments, fault⟩
        from rfl, stream_cons] at h
      cases hlexeme : segment.lexeme with
      | none =>
          rw [hlexeme] at h
          obtain ⟨front, back, rfl, hplaced, hstart⟩ := ih h
          refine ⟨segment :: front, back, rfl, ?_, hstart⟩
          rw [placed_cons, hlexeme, hplaced]
          rfl
      | some lexeme =>
          rw [hlexeme] at h
          cases before with
          | nil =>
              obtain ⟨rfl, -⟩ := List.cons.inj h
              exact ⟨[], segment :: segments, rfl, rfl, rfl⟩
          | cons first before =>
              obtain ⟨rfl, hrest⟩ := List.cons.inj h
              obtain ⟨front, back, rfl, hplaced, hstart⟩ := ih hrest
              refine ⟨segment :: front, back, rfl, ?_, hstart⟩
              rw [placed_cons, hlexeme, hplaced]
              rfl

/-- Segments end where their characters end. -/
theorem endPosition_eq (position : Position) (segments : List Segment) :
    endPosition position segments = position.after (segments.flatMap Segment.chars) := by
  induction segments generalizing position with
  | nil => rfl
  | cons segment segments ih =>
      rw [List.flatMap_cons, Position.after_append, ← ih]
      rfl

/-- The tokens of the stream stand one after another. -/
theorem stream_sorted (position : Position) (cs : List Char) :
    (ofSegmentation position (Segmentation.ofChars cs)).stream.Pairwise
        (fun first second => first.start.Before second.start) ∧
      ∀ token ∈ (ofSegmentation position (Segmentation.ofChars cs)).stream,
        token.start = position ∨ position.Before token.start := by
  induction cs using Segmentation.ofChars_induction generalizing position with
  | nil => exact ⟨List.pairwise_singleton _ _, by simp [stream, ofSegmentation, placed,
      Ending.stream, endPosition, Token.atEnd]⟩
  | fault => simp [stream, ofSegmentation, placed, Ending.stream]
  | segment c cs segment after _ _ hshape ih =>
      obtain ⟨hsorted, hplaced⟩ := ih (position.after segment.chars)
      have hne : segment.chars ≠ [] := by
        cases hshape with
        | gap _ hne _ => exact hne
        | lexeme _ _ hspells => exact hspells.ne_nil
      have hlater : ∀ token ∈ (ofSegmentation (position.after segment.chars)
          (Segmentation.ofChars after)).stream, position.Before token.start := by
        intro token hmem
        have hnext := position.before_after hne
        rcases hplaced token hmem with hstart | hstart
        · rwa [hstart]
        · exact hnext.trans hstart
      rw [stream_cons]
      cases segment.lexeme with
      | none => exact ⟨hsorted, fun token hmem => .inr (hlater token hmem)⟩
      | some lexeme =>
          refine ⟨List.pairwise_cons.mpr ⟨hlater, hsorted⟩, fun token hmem => ?_⟩
          rcases List.mem_cons.mp hmem with rfl | hmem
          · exact .inl rfl
          · exact .inr (hlater token hmem)

/-- Only one token of the stream stands at a given line and column. -/
theorem eq_of_place {cs : List Char} {first second : Token} (hfirst : first ∈ (ofChars cs).stream)
    (hsecond : second ∈ (ofChars cs).stream) (hline : first.start.line = second.start.line)
    (hcolumn : first.start.column = second.start.column) : first = second := by
  let Apart (first second : Token) : Prop :=
    ¬ (first.start.line = second.start.line ∧ first.start.column = second.start.column)
  have : Std.Symm Apart := ⟨fun _ _ h hsame => h ⟨hsame.1.symm, hsame.2.symm⟩⟩
  have hapart : (ofChars cs).stream.Pairwise Apart := by
    refine (stream_sorted .origin cs).1.imp ?_
    intro first second hbefore hsame
    unfold Position.Before at hbefore
    omega
  by_contra hne
  exact hapart.forall hfirst hsecond hne ⟨hline, hcolumn⟩

end Scan

namespace Reader

/-! ## Refusals -/

/-- A control does not take a lexeme. The end of the input is taken after the last word only. -/
def Control.Refuses (control : Control) : Lexeme → Prop
  | .eof => control ≠ after
  | lexeme => control.next? lexeme = none

/-- Before the end of the input a control refuses exactly what it cannot take. -/
theorem Control.refuses_of_ne_eof {control : Control} {lexeme : Lexeme} (h : lexeme ≠ .eof) :
    control.Refuses lexeme ↔ control.next? lexeme = none := by
  cases lexeme <;> simp_all [Refuses]

/-- A token is refused after tokens that are all taken. -/
theorem State.read_refused {file : String} {state : State} {ending : Ending} {tokens : List Token}
    {error : SyntaxError} (hnone : ∀ token ∈ tokens, token.lexeme ≠ .eof)
    (h : state.read file ending tokens = .error (.refused error)) :
    ∃ before after control, tokens ++ ending.stream = before ++ error.found :: after ∧
      state.control.run? (before.map Token.lexeme) = some control ∧
      control.Refuses error.found.lexeme := by
  induction tokens generalizing state with
  | nil =>
      cases ending with
      | fault => simp [read] at h
      | endOfInput position =>
          refine ⟨[], [], state.control, ?_⟩
          cases state with
          | after document => simp [read, finish, Except.mapError] at h
          | before | inside =>
              simp only [read, finish, Except.mapError, Except.error.injEq,
                ReadError.refused.injEq] at h
              subst h
              exact ⟨rfl, rfl, by simp [Token.atEnd, Control.Refuses, control]⟩
  | cons token tokens ih =>
      rw [read] at h
      have hcontrol := state.control_next? file token
      cases hnext : state.next? file token with
      | none =>
          rw [hnext] at h hcontrol
          cases h
          refine ⟨[], tokens ++ ending.stream, state.control, rfl, rfl, ?_⟩
          exact (Control.refuses_of_ne_eof (hnone token List.mem_cons_self)).mpr hcontrol.symm
      | some next =>
          rw [hnext] at h hcontrol
          have hrest : ∀ other ∈ tokens, other.lexeme ≠ .eof :=
            fun other hother => hnone other (List.mem_cons_of_mem token hother)
          obtain ⟨before, after, control, htokens, hrun, hrefuses⟩ := ih hrest h
          refine ⟨token :: before, after, control, congrArg (token :: ·) htokens, ?_, hrefuses⟩
          rw [List.map_cons, Control.run?_cons, ← hcontrol]
          exact hrun

end Reader

open Reader

/-! ## Completing a text -/

namespace Source

/-- A text has a document exactly if it is free of faults and its lexemes lead the control to the
end. -/
theorem document_ok_iff_run (source : Source) :
    (∃ document, source.document = .ok document) ↔
      (Segmentation.ofChars source.text.toList).fault = none ∧
        Control.before.run? (Segmentation.ofChars source.text.toList).lexemes = some .after := by
  have hdocument : (∃ document, source.document = .ok document) ↔
      ∃ document, State.before.read source.path source.scan.ending source.scan.tokens =
        .ok document := by
    rw [document, read]
    cases State.before.read source.path source.scan.ending source.scan.tokens <;>
      simp [Except.mapError]
  have hlexemes : source.scan.tokens.map Token.lexeme =
      (Segmentation.ofChars source.text.toList).lexemes := Scan.map_lexeme_tokens _
  rw [hdocument, ← hlexemes]
  cases hfault : (Segmentation.ofChars source.text.toList).fault with
  | none =>
      have hending : ∃ position, source.scan.ending = .endOfInput position := by
        simp [scan, Scan.ofChars, Scan.ofSegmentation, hfault]
      obtain ⟨position, hending⟩ := hending
      rw [hending, State.read_ok_iff]
      simp [State.control]
  | some fault =>
      have hending : ∃ error, source.scan.ending = .fault error := by
        simp [scan, Scan.ofChars, Scan.ofSegmentation, hfault]
      obtain ⟨error, hending⟩ := hending
      rw [hending]
      rcases State.read_fault source.path .before error source.scan.tokens with
        hread | ⟨_, _, _, hread⟩ <;> simp [hread]

/-- No token before the end of the input is the end of the input. -/
theorem lexeme_ne_eof (source : Source) : ∀ token ∈ source.scan.tokens, token.lexeme ≠ .eof := by
  intro token hmem heof
  have hlexemes : source.scan.tokens.map Token.lexeme =
      (Segmentation.ofChars source.text.toList).lexemes := Scan.map_lexeme_tokens _
  have hwritable := Segmentation.writable_of_lexemes source.text.toList token.lexeme
    (hlexemes ▸ List.mem_map_of_mem hmem)
  rw [heof] at hwritable
  exact hwritable

/-- The text before a token of the stream can go on with any writable lexemes. -/
theorem exists_continuation {source : Source} {before after : List Token} {token : Token}
    (h : source.scan.stream = before ++ token :: after) {lexemes : List Lexeme}
    (hlexemes : ∀ lexeme ∈ lexemes, lexeme.Writable) :
    ∃ suffix : List Char,
      let completed := Text.slice 0 token.start.offset source.text.toList ++ suffix
      (Segmentation.ofChars completed).fault = none ∧
        (Segmentation.ofChars completed).lexemes = before.map Token.lexeme ++ lexemes := by
  obtain ⟨front, back, hsegments, hbefore, hstart⟩ := Scan.split_segments h
  have hcut : Segmentation.ofChars source.text.toList =
      ⟨front ++ back, (Segmentation.ofChars source.text.toList).fault⟩ := by
    rw [← hsegments]
    rfl
  obtain ⟨rest, htext, -⟩ := Segmentation.flatMap_chars_ofChars hcut
  have hslice : Text.slice 0 token.start.offset source.text.toList =
      front.flatMap Segment.chars := by
    refine Text.slice_eq [] _ rest htext rfl ?_
    rw [hstart, Scan.endPosition_eq]
    exact Lexing.offset_reached _
  have hends : Lexing.EndsRuns (Segmentation.hidden ++ Segmentation.written lexemes) :=
    Lexing.endsRuns_hash _
  obtain ⟨hfault, hwritten⟩ := Segmentation.lexemes_written hlexemes
  refine ⟨Segmentation.hidden ++ Segmentation.written lexemes, ?_⟩
  simp only
  rw [hslice, Segmentation.ofChars_resume hcut hends, Segmentation.ofChars_hidden]
  refine ⟨hfault, ?_⟩
  rw [Segmentation.lexemes, Segmentation.prepend, List.filterMap_append, ← hbefore,
    Scan.map_lexeme_placed]
  exact congrArg _ hwritten

end Source

/-- The tokens up to a refused one do not start any document. -/
theorem Source.not_document_of_refused {source : Source} {lexemes : List Lexeme} {last : Lexeme}
    {control : Control} (hrun : Control.before.run? lexemes = some control)
    (hrefuses : control.Refuses last)
    (h : lexemes ++ [last] <+: source.scan.stream.map Token.lexeme) :
    ¬ ∃ document, source.document = .ok document := by
  rw [document_ok_iff_run]
  rintro ⟨hfault, hafter⟩
  have hlexemes : source.scan.tokens.map Token.lexeme =
      (Segmentation.ofChars source.text.toList).lexemes := Scan.map_lexeme_tokens _
  have hstream : source.scan.stream.map Token.lexeme =
      (Segmentation.ofChars source.text.toList).lexemes ++ [.eof] := by
    rw [Scan.stream, List.map_append, hlexemes]
    simp [scan, Scan.ofChars, Scan.ofSegmentation, hfault, Ending.stream, Token.atEnd]
  have heof : .eof ∉ (Segmentation.ofChars source.text.toList).lexemes :=
    fun hmem => Segmentation.writable_of_lexemes _ _ hmem
  rw [hstream, List.prefix_concat_iff] at h
  rcases h with hwhole | ⟨rest, hrest⟩
  · -- the refused token is the end of the input
    obtain ⟨hsame, hlast⟩ := List.append_inj' hwhole rfl
    cases hlast
    rw [← hsame, hrun] at hafter
    exact hrefuses (Option.some.inj hafter)
  · have hne : last ≠ .eof := by
      rintro rfl
      exact heof (hrest ▸ by simp)
    rw [Control.refuses_of_ne_eof hne] at hrefuses
    rw [← hrest, Control.run?_append, Control.run?_append, hrun] at hafter
    simp [hrefuses] at hafter

/-- A syntax error is reported at the first token that no continuation can save: the text before
this token can be completed to a text with a document, and no text whose lexemes start with those
up to this token has one. -/
theorem correct_prefix_of_refusal {source : Source} {d : Diagnostic}
    (h : source.document = .error d)
    (hcode : d.code = .malformed ∨ d.code = .trailingTokens) :
    ∃ before token after, source.scan.stream = before ++ token :: after ∧
      d.line = some token.start.line ∧ d.column = some token.start.column ∧
      (∀ other ∈ source.scan.stream, d.line = some other.start.line →
        d.column = some other.start.column → other = token) ∧
      (∃ suffix document,
        (Source.mk source.path (String.ofList
          (Text.slice 0 token.start.offset source.text.toList) ++ suffix)).document =
            .ok document) ∧
      ∀ other : Source,
        (before ++ [token]).map Token.lexeme <+: other.scan.stream.map Token.lexeme →
          ¬ ∃ document, other.document = .ok document := by
  obtain ⟨error, hread, rfl⟩ : ∃ error, source.read = .error (.refused error) ∧
      d = error.diagnostic source.path := by
    rw [Source.document] at h
    cases hread : source.read with
    | ok document => simp [hread, Except.mapError] at h
    | error reason =>
        rw [hread] at h
        cases h
        cases reason with
        | refused error => exact ⟨error, rfl, rfl⟩
        | lexical error =>
            -- a lexical error has a code of its own
            exfalso
            cases hfault : error.fault <;>
              simp [ReadError.diagnostic, LexicalError.diagnostic, Fault.code, hfault] at hcode
  obtain ⟨before, after, control, hstream, hrun, hrefuses⟩ :=
    State.read_refused source.lexeme_ne_eof hread
  have hmem : error.found ∈ source.scan.stream := by
    rw [Scan.stream, hstream]
    simp
  refine ⟨before, error.found, after, hstream, rfl, rfl, ?_, ?_, ?_⟩
  · intro other hother hline hcolumn
    exact Scan.eq_of_place hother hmem (Option.some.inj hline).symm (Option.some.inj hcolumn).symm
  · obtain ⟨suffix, hfault, hlexemes⟩ :=
      Source.exists_continuation hstream control.writable_completion
    obtain ⟨document, hdocument⟩ := (Source.document_ok_iff_run ⟨source.path, String.ofList
        (Text.slice 0 error.found.start.offset source.text.toList ++ suffix)⟩).mpr (by
      rw [String.toList_ofList]
      refine ⟨hfault, ?_⟩
      rw [hlexemes, Control.run?_append]
      change Control.before.run? _ = _ at hrun
      rw [hrun]
      exact control.run?_completion)
    exact ⟨String.ofList suffix, document, by rwa [← String.ofList_append]⟩
  · intro other hother
    rw [List.map_append] at hother
    exact Source.not_document_of_refused hrun hrefuses hother

/-- After `#I HAZ` and a carriage return the newline is refused, although a name written there would
become part of a free text: only after a comment can the name stand that completes the document. -/
theorem correct_prefix_of_refusal_carriage_return :
    ∃ d, (Source.mk "doc.lol" "#HAI\n#I HAZ\r\nx").document = .error d ∧ d.code = .malformed ∧
      ∃ before after,
        (Source.mk "doc.lol" "#HAI\n#I HAZ\r\nx").scan.stream =
          before ++ ⟨.newline, ⟨2, 8, 12⟩, ⟨3, 1, 13⟩⟩ :: after ∧
        (∃ suffix document,
          (Source.mk "doc.lol" ("#HAI\n#I HAZ\r" ++ suffix)).document = .ok document) ∧
        ∀ other : Source, before.map Token.lexeme ++ [.newline] <+:
          other.scan.stream.map Token.lexeme → ¬ ∃ document, other.document = .ok document := by
  have hd : (Source.mk "doc.lol" "#HAI\n#I HAZ\r\nx").document =
      .error ⟨.malformed, .error, "Expected variable name after #I HAZ but found newline",
        "doc.lol", some 2, some 8⟩ := by rfl
  obtain ⟨before, token, after, hstream, -, -, hunique, hcompletes, hhopeless⟩ :=
    correct_prefix_of_refusal hd (.inl rfl)
  have hmem : ⟨.newline, ⟨2, 8, 12⟩, ⟨3, 1, 13⟩⟩ ∈
      (Source.mk "doc.lol" "#HAI\n#I HAZ\r\nx").scan.stream := by decide
  obtain rfl := hunique _ hmem rfl rfl
  rw [List.map_append] at hhopeless
  exact ⟨_, hd, rfl, before, after, hstream, hcompletes, hhopeless⟩

end LolMarkup
