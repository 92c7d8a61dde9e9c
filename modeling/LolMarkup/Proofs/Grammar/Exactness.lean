import LolMarkup.Proofs.Grammar.Completeness
import LolMarkup.Proofs.Grammar.Soundness
import LolMarkup.Proofs.Reading.Laziness

/-!
# The grammar is exact

The reader accepts the lexemes of a scan exactly if the grammar has them (`run_iff_mem`). At the
level of sources, `document_ok_iff_mem_program` says that a text has a document exactly if it can be
cut into tokens and the grammar has their lexemes.
-/

namespace LolMarkup

open Reader

/-- No token is the first word of a comment. -/
theorem Lexing.Tiling.obtw_notMem {front rest : List Char} {tokens : List Token} {ending : Ending}
    (h : Tiling front rest tokens ending) : .hashWord .obtw ∉ tokens.map Token.lexeme := by
  induction h with
  | finish | fault => simp
  | token front gap chars after lexeme tokens ending _ _ hspells _ ih =>
      have hlexeme : .hashWord .obtw ≠ lexeme := by
        rintro rfl
        cases hspells with
        | hashWord _ _ hword _ _ => exact hword rfl
      rw [List.map_cons, List.mem_cons, not_or]
      exact ⟨hlexeme, ih⟩

namespace Grammar

/-- The lexemes other than the first word of a comment lead from the beginning to the end exactly if
the grammar has them. -/
theorem run_iff_mem {w : List Lexeme} (hobtw : .hashWord .obtw ∉ w) :
    Control.before.run? w = some .after ↔ w ∈ word .hai * bodyTail :=
  ⟨Control.mem_due_of_run hobtw, run_of_mem⟩

/-- Before the end of the input there is the first word of a document and what may follow it, and
nothing else. -/
theorem concat_eof_mem_program_iff {w : List Lexeme} :
    w ++ [.eof] ∈ program ↔ w ∈ word .hai * bodyTail := by
  have hprogram : program = word .hai * bodyTail * lexeme .eof := (mul_assoc ..).symm
  rw [hprogram]
  constructor
  · rintro ⟨front, hfront, _, rfl, heq⟩
    have hw : front = w := List.append_cancel_right heq
    exact hw ▸ hfront
  · intro hw
    exact Language.append_mem_mul hw rfl

end Grammar

/-- The tokens of a source have a document exactly if the grammar has their lexemes. -/
theorem Source.document_ok_iff_of_tokenize {source : Source} {tokens : List Token}
    (h : source.tokenize = .ok tokens) :
    (∃ document, source.document = .ok document) ↔
      tokens.map Token.lexeme ∈ Grammar.program := by
  obtain ⟨position, hending, rfl⟩ := tokenize_eq_ok_iff.mp h
  have hobtw : .hashWord .obtw ∉ source.scan.tokens.map Token.lexeme :=
    (Scan.tiling source.text.toList).obtw_notMem
  have hdocument : (∃ document, source.document = .ok document) ↔
      ∃ document, State.before.read source.path (.endOfInput position) source.scan.tokens =
        .ok document := by
    rw [document, read, hending]
    cases State.before.read source.path (.endOfInput position) source.scan.tokens <;>
      simp [Except.mapError]
  rw [hdocument, State.read_ok_iff, List.map_append]
  show Control.before.run? (source.scan.tokens.map Token.lexeme) = some .after ↔
    source.scan.tokens.map Token.lexeme ++ [.eof] ∈ Grammar.program
  rw [Grammar.run_iff_mem hobtw, Grammar.concat_eof_mem_program_iff]

/-- A source has a document exactly if it has tokens and the grammar has their lexemes. -/
theorem document_ok_iff_mem_program (source : Source) :
    (∃ document, source.document = .ok document) ↔
      ∃ tokens, source.tokenize = .ok tokens ∧ tokens.map Token.lexeme ∈ Grammar.program := by
  cases htokenize : source.tokenize with
  | ok tokens => simp [Source.document_ok_iff_of_tokenize htokenize]
  | error d =>
      -- Without tokens there is a diagnostic, of the lexical error or of a token before it.
      obtain ⟨e, hdocument, -⟩ := Source.document_of_tokenize_error htokenize
      simp [hdocument]

end LolMarkup
