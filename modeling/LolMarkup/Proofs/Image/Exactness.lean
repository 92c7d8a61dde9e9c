import LolMarkup.Proofs.Image.Printing

/-!
# Which documents are read

The documents that are read are, up to spans, the well-made ones (`document_iff_wellMade`). A free
text may be any piece. It may also start with a letter, although a letter in the text is read as the
first of a word: blank characters other than spaces and tabs start a free text and are trimmed from
it. So the free texts are not only those that start with no letter
(`not_document_iff_wellMade_unlettered`).
-/

namespace LolMarkup

open Lexing Reader

/-- A document is read from some text, up to spans, exactly if it is well made. -/
theorem document_iff_wellMade (document : Document) :
    (∃ source : Source, ∃ read, source.document = .ok read ∧ read.bare = document.bare) ↔
      document.WellMade IsPiece IsPiece := by
  constructor
  · rintro ⟨source, read, hread, hbare⟩
    have hwellMade := Source.wellMade_of_document hread
    rw [← read.wellMade_bare, hbare] at hwellMade
    exact document.wellMade_bare.mp hwellMade
  · intro h
    exact (Source.exists_document_iff document.bare).mpr
      ⟨document.words, Document.writable_words h.shaped, Document.run?_words h⟩

namespace Lexing

/-- A piece that starts with no letter unless it is a name. -/
def IsUnlettered (s : String) : Prop :=
  IsName s ∨ IsPiece s ∧ ∀ c, s.toList.head? = some c → c.isAlpha = false

/-- A piece of two words starts with a letter and is no name. -/
theorem not_isUnlettered_abc_def : ¬ IsUnlettered "abc def" := by
  rintro (⟨⟨c, rest, hchars, -, hrest, -⟩, -⟩ | ⟨-, hhead⟩)
  · obtain ⟨-, rfl⟩ := List.cons.inj hchars
    exact absurd (hrest ' ' (by decide)) (by decide)
  · exact absurd (hhead 'a' rfl) (by decide)

end Lexing

/-- A document need not be made of names, keywords and pieces that start with no letter: after a
no-break space two words are one free text. -/
theorem not_document_iff_wellMade_unlettered :
    ¬ ∀ document : Document,
      (∃ source : Source, ∃ read, source.document = .ok read ∧ read.bare = document.bare) ↔
        document.WellMade IsUnlettered
          (fun s => IsUnlettered s ∨ ∃ word : Keyword, s = word.spelling) := by
  intro h
  have hread : (Source.mk "doc.lol" "#HAI\n\u00a0abc def\n#KTHXBYE").document =
      .ok ⟨⟨"doc.lol", ⟨1, 1, 0⟩, ⟨3, 9, 22⟩⟩,
        [.inline (.text ⟨"doc.lol", ⟨2, 1, 5⟩, ⟨2, 9, 13⟩⟩ "abc def")]⟩ := by rfl
  rcases ((h _).mp ⟨_, _, hread, rfl⟩).shaped _ List.mem_cons_self with hpiece | ⟨word, hword⟩
  · exact not_isUnlettered_abc_def hpiece
  · cases word <;> exact absurd hword (by decide)

end LolMarkup
