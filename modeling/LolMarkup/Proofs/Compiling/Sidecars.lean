import LolMarkup.Proofs.Compiling.Contract
import LolMarkup.Proofs.Grammar.Exactness
import LolMarkup.Proofs.Reading.Refusal

/-!
# What is diagnosed beside a listing or an outline

An error of a source is where its lexemes stop to be the beginning of a document
(`Grammar.Begins`), or where its tokens end in a fault. `Source.FirstError` is the first of these
places, and reading on demand stops there (`Source.firstError_of_document`). An outline changes
nothing about this. A listing needs all tokens before the first of them is read, so a fault is
then reported also if a token before it is refused. `diagnostics_beside_artifacts` says what is
diagnosed in either case, and when this differs.
-/

namespace LolMarkup

open Reader

/-! ## Beginnings of documents -/

namespace Grammar

/-- The lexemes are the beginning of a document. -/
def Begins (lexemes : List Lexeme) : Prop :=
  ∃ rest, lexemes ++ rest ∈ program

variable {lexemes : List Lexeme} {control : Control}

/-- Lexemes that are taken one after another are the beginning of a document. -/
theorem begins_of_run (hobtw : .hashWord .obtw ∉ lexemes)
    (h : Control.before.run? lexemes = some control) : Begins lexemes := by
  have hcompletion : .hashWord .obtw ∉ lexemes ++ control.completion := by
    rw [List.mem_append, not_or]
    refine ⟨hobtw, fun hmem => ?_⟩
    exact absurd (control.writable_completion _ hmem) (by simp [Lexeme.Writable])
  refine ⟨control.completion ++ [.eof], ?_⟩
  rw [← List.append_assoc, concat_eof_mem_program_iff, ← run_iff_mem hcompletion,
    Control.run?_append, h]
  exact control.run?_completion

/-- The control never goes on over the end of the input. -/
theorem next?_eof (control : Control) : control.next? .eof = none := by
  cases hnext : control.next? .eof with
  | none => rfl
  | some next =>
      cases Control.move_of_next? hnext with
      | within place next depth _ hplace => cases place <;> simp [Place.next?] at hplace

/-- Every document ends with the end of the input. -/
theorem exists_front_of_mem_program {w : List Lexeme} (h : w ∈ program) :
    ∃ front ∈ word .hai * bodyTail, w = front ++ [.eof] := by
  have hprogram : program = word .hai * bodyTail * lexeme .eof := (mul_assoc ..).symm
  rw [hprogram] at h
  obtain ⟨front, hfront, _, rfl, rfl⟩ := h
  exact ⟨front, hfront, rfl⟩

/-- With a lexeme that is refused they no longer are. -/
theorem not_begins_of_refuses {last : Lexeme} (h : Control.before.run? lexemes = some control)
    (hrefuses : control.Refuses last) : ¬ Begins (lexemes ++ [last]) := by
  rintro ⟨rest, hmem⟩
  obtain ⟨front, hfront, heq⟩ := exists_front_of_mem_program hmem
  have hrun := run_of_mem hfront
  rcases List.eq_nil_or_concat rest with rfl | ⟨rest, final, rfl⟩
  · -- the document ends with the refused lexeme, so this is the end of the input
    rw [List.append_nil] at heq
    obtain ⟨rfl, hlast⟩ := List.append_inj' heq rfl
    cases hlast
    rw [hrun] at h
    cases h
    exact hrefuses rfl
  · rw [List.concat_eq_append, ← List.append_assoc] at heq
    obtain ⟨rfl, -⟩ := List.append_inj' heq rfl
    have hnext : control.next? last = none := by
      by_cases heof : last = .eof
      · rw [heof, next?_eof]
      · exact (Control.refuses_of_ne_eof heof).mp hrefuses
    rw [Control.run?_append, Control.run?_append, h] at hrun
    simp [hnext] at hrun

end Grammar

/-! ## The first error -/

/-- A lexical error is met after tokens that are all taken. -/
theorem Reader.State.read_lexical {file : String} {state : State} {ending : Ending}
    {tokens : List Token} {error : LexicalError}
    (h : state.read file ending tokens = .error (.lexical error)) :
    ending = .fault error ∧
      ∃ control, state.control.run? (tokens.map Token.lexeme) = some control := by
  induction tokens generalizing state with
  | nil =>
      cases ending with
      | endOfInput position => exact absurd h (state.read_endOfInput_ne_lexical file position [] _)
      | fault other =>
          cases h
          exact ⟨rfl, state.control, rfl⟩
  | cons token tokens ih =>
      rw [read] at h
      have hcontrol := state.control_next? file token
      cases hnext : state.next? file token with
      | none => simp [hnext] at h
      | some next =>
          rw [hnext] at h hcontrol
          obtain ⟨hending, control, hrun⟩ := ih h
          refine ⟨hending, control, ?_⟩
          rw [List.map_cons, Control.run?_cons, ← hcontrol]
          exact hrun

namespace Source

/-- The first lexical or syntax error of a source. What stands before it is the beginning of a
document. -/
inductive FirstError (source : Source) : Diagnostic → Prop where
  /-- The tokens end in a fault. -/
  | lexical (error : LexicalError) : source.scan.ending = .fault error →
      Grammar.Begins (source.scan.tokens.map Token.lexeme) →
      FirstError source (error.diagnostic source.path)
  /-- With a token, which may be the end of the input, no document begins any more. -/
  | syntactic (before after : List Token) (token : Token) (expected : Expectation) :
      source.scan.stream = before ++ token :: after →
      Grammar.Begins (before.map Token.lexeme) →
      ¬ Grammar.Begins ((before ++ [token]).map Token.lexeme) →
      FirstError source (SyntaxError.diagnostic source.path ⟨expected, token⟩)

/-- No token is the word that starts a comment. -/
theorem obtw_notMem_stream (source : Source) :
    .hashWord .obtw ∉ source.scan.stream.map Token.lexeme := by
  have htokens : .hashWord .obtw ∉ source.scan.tokens.map Token.lexeme :=
    (Scan.tiling source.text.toList).obtw_notMem
  rw [Scan.stream, List.map_append, List.mem_append, not_or]
  refine ⟨htokens, ?_⟩
  cases source.scan.ending <;> simp [Ending.stream, Token.atEnd]

/-- A source that has no document is diagnosed with its first error. -/
theorem firstError_of_document {source : Source} {d : Diagnostic} (h : source.document = .error d) :
    source.FirstError d := by
  have hobtw := source.obtw_notMem_stream
  rw [document] at h
  cases hread : source.read with
  | ok document => simp [hread, Except.mapError] at h
  | error reason =>
      rw [hread] at h
      cases h
      cases reason with
      | lexical error =>
          obtain ⟨hending, control, hrun⟩ := State.read_lexical hread
          refine .lexical error hending (Grammar.begins_of_run ?_ hrun)
          intro hmem
          exact hobtw (by rw [Scan.stream, List.map_append]; exact List.mem_append_left _ hmem)
      | refused error =>
          obtain ⟨before, after, control, hstream, hrun, hrefuses⟩ :=
            State.read_refused source.lexeme_ne_eof hread
          refine .syntactic before after error.found error.expected hstream
            (Grammar.begins_of_run ?_ hrun) ?_
          · intro hmem
            apply hobtw
            rw [Scan.stream, hstream, List.map_append]
            exact List.mem_append_left _ hmem
          · rw [List.map_append]
            exact Grammar.not_begins_of_refuses hrun hrefuses

/-! ## Diagnostics -/

/-- What is found in a source: its first error, or all problems of its document. -/
inductive Finds (source : Source) : List Diagnostic → Prop where
  | error (d : Diagnostic) : source.FirstError d → Finds source [d]
  | problems (document : Document) : source.document = .ok document →
      Finds source document.diagnostics

/-- What is found in a source that is read on demand. -/
def findings (source : Source) : List Diagnostic :=
  match source.document with
  | .error d => [d]
  | .ok document => document.diagnostics

/-- What is found in a source that is read on demand is its first error or all problems of its
document. -/
theorem finds_findings (source : Source) : source.Finds source.findings := by
  unfold findings
  cases h : source.document with
  | error d => exact .error d (firstError_of_document h)
  | ok document => exact .problems document h

variable {source : Source} {options : Options}

/-- If the listing can be made, the diagnostics are what is found in the source. -/
theorem diagnostics_of_listing (here : Path) {drafts : List Draft}
    (hlex : options.lexOnly = false) (h : source.listing options = .ok drafts) :
    (source.compile here options).diagnostics = source.findings := by
  unfold compile findings
  simp only [h, hlex, Bool.false_eq_true, if_false]
  cases source.document with
  | error d => rfl
  | ok document =>
      simp only
      split <;> rfl

/-- A compilation that lists the tokens reports a lexical error before anything else. -/
theorem diagnostics_of_emitTokens (here : Path) (hlex : options.lexOnly = false)
    (hemit : options.emitTokens = true) :
    (source.compile here options).diagnostics =
      match source.tokenize with
      | .error d => [d]
      | .ok _ => source.findings := by
  have hlisting : source.listing options =
      source.tokenize.map fun tokens => [.tokens tokens options.lineEnding] := by
    simp [listing, hemit]
  cases htokens : source.tokenize with
  | error d =>
      rw [htokens] at hlisting
      simp only [compile, hlisting]
      rfl
  | ok tokens =>
      rw [htokens] at hlisting
      exact diagnostics_of_listing here hlex hlisting

/-- What is found in a source with a lexical error is that error, or a refusal before it. -/
theorem findings_of_tokenize_error {d : Diagnostic} (h : source.tokenize = .error d) :
    source.findings = [d] ∨
      ∃ e, source.findings = [e] ∧ e ≠ d ∧ source.RefusedBefore e d := by
  obtain ⟨e, hdocument, he⟩ := document_of_tokenize_error h
  have hfindings : source.findings = [e] := by rw [findings, hdocument]
  rcases he with rfl | hrefused
  · exact .inl hfindings
  · refine .inr ⟨e, hfindings, ?_, hrefused⟩
    rintro rfl
    obtain ⟨error, -, rfl⟩ := tokenize_eq_error_iff.mp h
    have hcode := hrefused.1
    cases hfault : error.fault <;> simp [LexicalError.diagnostic, Fault.code, hfault] at hcode

end Source

/-- An outline does not change what is diagnosed, and neither does a line ending. A listing changes
it only where a syntax error stands before a lexical error, which is then reported in its place. -/
theorem diagnostics_beside_artifacts (here : Path) (source : Source) :
    ∃ found, source.Finds found ∧
      (∀ outline ending, (source.compile here
        { emitOutline := outline, lineEnding := ending }).diagnostics = found) ∧
      (∀ outline ending, (source.compile here
        { emitTokens := true, emitOutline := outline, lineEnding := ending }).diagnostics =
          match source.tokenize with
          | .error d => [d]
          | .ok _ => found) ∧
      ∀ d, source.tokenize = .error d →
        found = [d] ∨ ∃ e, found = [e] ∧ e ≠ d ∧ source.RefusedBefore e d := by
  refine ⟨source.findings, source.finds_findings, ?_, ?_, ?_⟩
  · intro outline ending
    exact Source.diagnostics_of_listing here rfl rfl
  · intro outline ending
    exact Source.diagnostics_of_emitTokens here rfl rfl
  · intro d htokens
    exact Source.findings_of_tokenize_error htokens

/-- The name after `#MAEK` is diagnosed, unless the tokens are listed: then it is the unknown word
on the next line. -/
theorem diagnostics_beside_artifacts_hidden :
    ∃ d e, (Source.mk "doc.lol" "#HAI #MAEK x\n#NOPE").tokenize = .error d ∧
      (∀ outline ending, ((Source.mk "doc.lol" "#HAI #MAEK x\n#NOPE").compile ⟨[]⟩
        { emitOutline := outline, lineEnding := ending }).diagnostics = [e]) ∧
      (∀ outline ending, ((Source.mk "doc.lol" "#HAI #MAEK x\n#NOPE").compile ⟨[]⟩
        { emitTokens := true, emitOutline := outline, lineEnding := ending }).diagnostics = [d]) ∧
      e ≠ d ∧ (Source.mk "doc.lol" "#HAI #MAEK x\n#NOPE").RefusedBefore e d := by
  have hd : (Source.mk "doc.lol" "#HAI #MAEK x\n#NOPE").tokenize =
      .error ⟨.unknownHashWord, .error, "Unrecognized hashtag word '#NOPE'", "doc.lol", some 2,
        some 1⟩ := by rfl
  have he : (Source.mk "doc.lol" "#HAI #MAEK x\n#NOPE").document =
      .error ⟨.malformed, .error, "Expected section type after #MAEK but found identifier 'x'",
        "doc.lol", some 1, some 12⟩ := by rfl
  obtain ⟨found, -, hplain, hlisted, hlexical⟩ :=
    diagnostics_beside_artifacts ⟨[]⟩ ⟨"doc.lol", "#HAI #MAEK x\n#NOPE"⟩
  rw [hd] at hlisted
  have hfound : found = [_] := (hplain false .lf).symm.trans (by rw [Source.compile, he]; rfl)
  rcases hlexical _ hd with hsame | ⟨e, hother, hne, hrefused⟩
  · rw [hfound] at hsame
    simp at hsame
  · rw [hother] at hplain
    exact ⟨_, e, hd, hplain, hlisted, hne, hrefused⟩

/-- The diagnostics depend on whether the tokens are listed: of a name without `#HAI` before an
unknown word the name is diagnosed, or the word. -/
theorem not_forall_diagnostics_eq :
    ¬ ∀ (here : Path) (source : Source) (options other : Options), options.lexOnly = false →
      other.lexOnly = false → other.lineEnding = options.lineEnding →
        (source.compile here other).diagnostics = (source.compile here options).diagnostics := by
  intro h
  have hsame := h ⟨[]⟩ ⟨"doc.lol", "x #NOPE"⟩ {} { emitTokens := true } rfl rfl rfl
  have hplain : ((Source.mk "doc.lol" "x #NOPE").compile ⟨[]⟩ {}).diagnostics =
      [⟨.malformed, .error, "Expected '#HAI' but found identifier 'x'", "doc.lol", some 1,
        some 1⟩] := by rfl
  have hlisted : ((Source.mk "doc.lol" "x #NOPE").compile ⟨[]⟩
      { emitTokens := true }).diagnostics =
        [⟨.unknownHashWord, .error, "Unrecognized hashtag word '#NOPE'", "doc.lol", some 1,
          some 3⟩] := by rfl
  rw [hplain, hlisted] at hsame
  simp at hsame

end LolMarkup
