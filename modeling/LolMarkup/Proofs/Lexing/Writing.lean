import LolMarkup.Proofs.Lexing.Resumption
import LolMarkup.Proofs.Lexing.Tiling

/-!
# Writing lexemes

`Lexeme.Writable` says which lexemes a text can hold: free text is a piece, a name is an identifier
that is no keyword. Every lexeme that is cut off a text is writable
(`Segmentation.writable_of_lexemes`), and every list of writable lexemes is the list of lexemes of a
text: `written` puts a space before each of them and an empty comment after it, which ends every run
without being a token of its own (`Segmentation.lexemes_written`).
-/

namespace LolMarkup

namespace Text

/-- Trimming adds no characters. -/
theorem mem_of_mem_trim {c : Char} {cs : List Char} (h : c ∈ trim cs) : c ∈ cs := by
  have hend : c ∈ cs.dropWhile isBlank := (List.rdropWhile_prefix isBlank _).subset h
  exact (List.dropWhile_suffix isBlank).subset hend

/-- What does not end with a blank character is not trimmed at its end. -/
theorem trimEnd_eq_self {cs : List Char} (h : ∀ c, cs.getLast? = some c → isBlank c = false) :
    trimEnd cs = cs := by
  refine List.rdropWhile_eq_self_iff.mpr ?_
  intro hne
  rw [h _ (List.getLast?_eq_some_getLast hne)]
  exact Bool.false_ne_true

/-- Blank characters at the end are trimmed away. -/
theorem trimEnd_append_blank {blanks : List Char} (cs : List Char)
    (h : ∀ c ∈ blanks, isBlank c = true) : trimEnd (cs ++ blanks) = trimEnd cs := by
  unfold trimEnd
  rw [List.reverse_append, List.dropWhile_append_of_pos]
  intro c hc
  exact h c (List.mem_reverse.mp hc)

/-- A text that starts and ends with characters that are not blank is trimmed. -/
theorem trim_eq_self {cs : List Char} (hfirst : ∀ c, cs.head? = some c → isBlank c = false)
    (hlast : ∀ c, cs.getLast? = some c → isBlank c = false) : trim cs = cs := by
  have hdrop : cs.dropWhile isBlank = cs := by
    cases cs with
    | nil => rfl
    | cons c cs => rw [List.dropWhile_cons, hfirst c rfl, if_neg Bool.false_ne_true]
  rw [trim, hdrop, trimEnd_eq_self hlast]

/-- What is trimmed does not start with a blank character. -/
theorem head?_trim {cs : List Char} {c : Char} (h : (trim cs).head? = some c) :
    isBlank c = false := by
  have hstart : (cs.dropWhile isBlank).head? = some c := by
    obtain ⟨rest, hrest⟩ := List.rdropWhile_prefix isBlank (l := cs.dropWhile isBlank)
    rw [← hrest, List.head?_append]
    exact (congrArg (Option.or · _) h).trans rfl
  have hblank := List.head?_dropWhile_not isBlank cs
  rw [hstart] at hblank
  exact hblank

/-- What is trimmed does not end with a blank character. -/
theorem getLast?_trim {cs : List Char} {c : Char} (h : (trim cs).getLast? = some c) :
    isBlank c = false := by
  have hne : trim cs ≠ [] := by
    intro hnil
    simp [hnil] at h
  have hlast := List.rdropWhile_last_not isBlank (cs.dropWhile isBlank) hne
  rw [List.getLast?_eq_some_getLast hne, Option.some.injEq] at h
  rw [← h]
  exact Bool.eq_false_iff.mpr hlast

/-- Trimming a trimmed text changes nothing. -/
theorem trim_trim (cs : List Char) : trim (trim cs) = trim cs :=
  trim_eq_self (fun _ => head?_trim) (fun _ => getLast?_trim)

end Text

namespace Lexing

open Segment (upper)

/-- A character that is no letter has no upper case of its own. -/
theorem toUpper_of_not_isAlpha {c : Char} (h : c.isAlpha = false) : c.toUpper = c := by
  apply Char.toUpper_eq_of_not_isLower
  intro hlower
  rw [Char.isAlpha, hlower, Bool.or_true] at h
  cases h

/-- Upper case makes no character into another one that is no letter. -/
theorem toUpper_eq_iff {c d : Char} (hd : d.isAlpha = false) : c.toUpper = d ↔ c = d := by
  constructor
  · rintro rfl
    rw [Char.isAlpha_toUpper_eq_isAlpha] at hd
    exact (toUpper_of_not_isAlpha hd).symm
  · rintro rfl
    exact toUpper_of_not_isAlpha hd

/-- A text that can stand as one free text: it is not empty, no blank character stands at its ends,
and no `#` and no line feed in it. -/
def IsPiece (s : String) : Prop :=
  s ≠ "" ∧ Text.trimmed s = s ∧ ∀ c ∈ s.toList, c ≠ '#' ∧ c ≠ '\n'

/-- Whether a text is a piece is decided by looking at its characters. -/
instance : DecidablePred IsPiece := fun s =>
  inferInstanceAs (Decidable (s ≠ "" ∧ Text.trimmed s = s ∧ ∀ c ∈ s.toList, c ≠ '#' ∧ c ≠ '\n'))

/-- A text that can stand as a name: a letter with letters and digits after it that spell no
keyword in whatever letter case. -/
def IsName (s : String) : Prop :=
  IsWord [] s.toList ∧ Keyword.ofSpelling? (upper s.toList) = none

/-- A piece stays as it is when it is trimmed. -/
theorem IsPiece.trim {s : String} (h : IsPiece s) : Text.trim s.toList = s.toList := by
  have htrimmed := congrArg String.toList h.2.1
  rwa [Text.trimmed, String.toList_ofList] at htrimmed

/-- Free text that is trimmed is a piece, if anything is left of it. -/
theorem isPiece_of_trim {chars : List Char} (h : Text.trim chars ≠ [])
    (hfree : ∀ c ∈ chars, c ≠ '\n' ∧ c ≠ '#') : IsPiece (String.ofList (Text.trim chars)) := by
  refine ⟨?_, ?_, ?_⟩
  · intro hempty
    have hnil := congrArg String.toList hempty
    rw [String.toList_ofList] at hnil
    exact h hnil
  · rw [Text.trimmed, String.toList_ofList, Text.trim_trim]
  · intro c hc
    rw [String.toList_ofList] at hc
    exact (hfree c (Text.mem_of_mem_trim hc)).symm

/-- A letter with letters and digits after it is a piece. -/
theorem isPiece_of_isWord {s : String} (h : IsWord [] s.toList) : IsPiece s := by
  obtain ⟨c, rest, hs, halpha, hrest, -⟩ := h
  have hall : ∀ d ∈ s.toList, d.isAlphanum = true := by
    intro d hd
    rw [hs] at hd
    rcases List.mem_cons.mp hd with rfl | hd
    · rw [Char.isAlphanum, halpha, Bool.true_or]
    · exact hrest d hd
  have hsolid : ∀ d ∈ s.toList, Text.isBlank d = false := by
    intro d hd
    by_contra hblank
    have hclass := not_isAlphanum_of_isBlank (Bool.eq_true_of_not_eq_false hblank)
    rw [hall d hd] at hclass
    exact absurd hclass (by decide)
  refine ⟨?_, ?_, ?_⟩
  · rintro rfl
    simp at hs
  · rw [Text.trimmed, Text.trim_eq_self (fun d hd => hsolid d (List.mem_of_mem_head? hd))
      (fun d hd => hsolid d (List.mem_of_mem_getLast? hd)), String.ofList_toList]
  · intro d hd
    have hclass := hall d hd
    constructor <;> (rintro rfl; exact absurd hclass (by decide))

/-- A name is a piece. -/
theorem IsName.isPiece {s : String} (h : IsName s) : IsPiece s :=
  isPiece_of_isWord h.1

/-- A keyword is a piece. -/
theorem isPiece_spelling (word : Keyword) : IsPiece word.spelling := by
  have hword : IsWord [] word.spelling.toList := by
    cases word <;> exact ⟨_, _, rfl, rfl, List.all_eq_true.mp rfl, by simp [Stops]⟩
  exact isPiece_of_isWord hword

end Lexing

open Lexing

namespace Lexeme

/-- A lexeme that a text can hold before its end. -/
def Writable : Lexeme → Prop
  | hashWord word => word ≠ .obtw
  | keyword _ => True
  | text content => IsPiece content
  | name identifier => IsName identifier
  | newline => True
  | eof => False

/-- The characters for a lexeme. Free text may start with a letter, which would make it a word, so
that it is written after a carriage return. -/
def chars : Lexeme → List Char
  | hashWord word => word.spelling.toList
  | keyword word => word.spelling.toList
  | text content => '\r' :: content.toList
  | name identifier => identifier.toList
  | newline => ['\n']
  | eof => []

end Lexeme

/-! ## The lexemes of a text -/

/-- A lexeme that is written somewhere can be written. -/
theorem Lexing.Spells.writable {after chars : List Char} {lexeme : Lexeme}
    (h : Spells after lexeme chars) : lexeme.Writable := by
  cases h with
  | newline | keyword => trivial
  | name _ hword hnot =>
      obtain ⟨c, rest, rfl, halpha, hrest, -⟩ := hword
      refine ⟨⟨c, rest, String.toList_ofList, halpha, hrest, ?_⟩, ?_⟩
      · intro d hd
        cases hd
      · rwa [String.toList_ofList]
  | hashWord _ _ hne _ _ => exact hne
  | text _ hrun htrim => exact isPiece_of_trim htrim hrun.2.1

/-- The lexemes of the segments of a text. -/
def Segmentation.lexemes (cut : Segmentation) : List Lexeme :=
  cut.segments.filterMap Segment.lexeme

/-- The tokens of segments have the lexemes of these. -/
theorem Scan.map_lexeme_placed (position : Position) (segments : List Segment) :
    (placed position segments).map Token.lexeme = segments.filterMap Segment.lexeme := by
  induction segments generalizing position with
  | nil => rfl
  | cons segment rest ih =>
      simp only [placed, List.filterMap_cons]
      cases segment.lexeme with
      | none => exact ih _
      | some lexeme => rw [List.map_cons, ih]

/-- The tokens of a scan have the lexemes of its segments. -/
theorem Scan.map_lexeme_tokens (cs : List Char) :
    (ofChars cs).tokens.map Token.lexeme = (Segmentation.ofChars cs).lexemes :=
  map_lexeme_placed _ _

/-- The lexemes of every text are writable. -/
theorem Segmentation.writable_of_lexemes (cs : List Char) :
    ∀ lexeme ∈ (ofChars cs).lexemes, lexeme.Writable := by
  induction cs using Segmentation.ofChars_induction with
  | nil | fault =>
      intro lexeme h
      cases h
  | segment c cs segment after _ _ hshape ih =>
      intro lexeme h
      rw [lexemes, cons, List.filterMap_cons] at h
      cases hshape with
      | gap => exact ih lexeme h
      | lexeme chars found hspells =>
          rcases List.mem_cons.mp h with rfl | hmem
          · exact hspells.writable
          · exact ih lexeme hmem

/-! ## A text for given lexemes -/

namespace Segmentation

/-- An empty comment, which ends every run in front of it. -/
def hidden : List Char := "#OBTW#TLDR".toList

/-- A text that holds the given lexemes and no others. -/
def written (lexemes : List Lexeme) : List Char :=
  lexemes.flatMap fun lexeme => ' ' :: (lexeme.chars ++ hidden)

/-- Behind a carriage return a piece is cut off as free text, even if it could stand as a name. -/
theorem first_text {content : String} (h : IsPiece content) :
    Segment.first '\r' content.toList =
      .ok ⟨'\r' :: content.toList, some (.text content)⟩ := by
  have hrun : content.toList.takeWhile Segment.isFree = content.toList := by
    rw [List.takeWhile_eq_self_iff]
    intro c hc
    obtain ⟨hhash, hline⟩ := h.2.2 c hc
    simp [Segment.isFree, hhash, hline]
  have htrim : Text.trim ('\r' :: content.toList) = content.toList := h.trim
  have hne : content.toList.isEmpty = false := by
    rw [List.isEmpty_eq_false_iff, ne_eq, String.toList_eq_nil_iff]
    exact h.1
  show Except.ok (Segment.ofFree ('\r' :: content.toList.takeWhile Segment.isFree)) = _
  rw [hrun, Segment.ofFree, htrim, hne, String.ofList_toList]
  rfl

/-- A letter is neither a space nor a tab. -/
theorem not_isSeparator_of_isAlpha {c : Char} (h : c.isAlpha = true) :
    Segment.isSeparator c = false := by
  by_contra hseparator
  have hblank := (Segment.blank_of_isSeparator (Bool.eq_true_of_not_eq_false hseparator)).1
  have hclass := not_isAlphanum_of_isBlank hblank
  rw [Char.isAlphanum, h, Bool.true_or] at hclass
  exact absurd hclass (by decide)

/-- A name alone is cut off as a name. -/
theorem first_name {identifier : String} {c : Char} {rest : List Char} (h : IsName identifier)
    (hchars : identifier.toList = c :: rest) :
    Segment.first c rest = .ok ⟨identifier.toList, some (.name identifier)⟩ := by
  obtain ⟨⟨d, more, hmore, halpha, hrest, -⟩, hword⟩ := h
  obtain ⟨rfl, rfl⟩ := List.cons.inj (hchars.symm.trans hmore)
  have hrun : rest.takeWhile Char.isAlphanum = rest := List.takeWhile_eq_self_iff.mpr hrest
  have hseparator := not_isSeparator_of_isAlpha halpha
  have hline : c ≠ '\n' := by
    rintro rfl
    exact absurd halpha (by decide)
  have hhash : c ≠ '#' := by
    rintro rfl
    exact absurd halpha (by decide)
  rw [Segment.first, if_neg (by rw [hseparator]; decide), if_neg hline, if_neg hhash,
    if_pos halpha, hrun, Segment.ofWord, ← hchars, hword]
  simp

/-- The characters of a writable lexeme are cut off as this lexeme. -/
theorem first_chars {lexeme : Lexeme} (h : lexeme.Writable) :
    ∃ c tail, lexeme.chars = c :: tail ∧ Segment.isSeparator c = false ∧
      Segment.first c tail = .ok ⟨lexeme.chars, some lexeme⟩ := by
  cases lexeme with
  | hashWord word =>
      cases word with
      | obtw => exact absurd rfl h
      | _ => exact ⟨'#', _, rfl, rfl, rfl⟩
  | keyword word => cases word <;> exact ⟨_, _, rfl, rfl, rfl⟩
  | text content => exact ⟨'\r', _, rfl, rfl, first_text h⟩
  | name identifier =>
      obtain ⟨⟨c, rest, hchars, halpha, -⟩, -⟩ := id h
      exact ⟨c, rest, hchars, not_isSeparator_of_isAlpha halpha, first_name h hchars⟩
  | newline => exact ⟨'\n', [], rfl, rfl, rfl⟩
  | eof => exact h.elim

/-- Nothing or a space stands first in a written text. -/
theorem sameEdge_written (lexemes : List Lexeme) : SameEdge [' '] (written lexemes) := by
  cases lexemes with
  | nil => exact .inr endsRuns_nil
  | cons => exact .inl rfl

/-- An empty comment in front is a gap. -/
theorem ofChars_hidden (lexemes : List Lexeme) :
    ofChars (hidden ++ written lexemes) = cons ⟨hidden, none⟩ (ofChars (written lexemes)) := by
  have hfirst : Segment.first '#' ("OBTW#TLDR".toList ++ [' ']) = .ok ⟨hidden, none⟩ := rfl
  exact ofChars_of_first (Segment.first_swap (sameEdge_written lexemes) hfirst rfl) rfl

/-- A written lexeme is cut off between the gaps around it. -/
theorem ofChars_written_cons {lexeme : Lexeme} (h : lexeme.Writable) (lexemes : List Lexeme) :
    ofChars (written (lexeme :: lexemes)) =
      prepend [⟨[' '], none⟩, ⟨lexeme.chars, some lexeme⟩, ⟨hidden, none⟩]
        (ofChars (written lexemes)) := by
  obtain ⟨c, tail, hchars, hseparator, hfirst⟩ := first_chars h
  have hspace : Segment.first ' ' ([] ++ c :: (tail ++ (hidden ++ written lexemes))) =
      .ok ⟨[' '], none⟩ := by
    rw [List.nil_append, Segment.first, if_pos (by decide), List.takeWhile_cons, hseparator]
    rfl
  have hlexeme : Segment.first c (tail ++ (hidden ++ written lexemes)) =
      .ok ⟨lexeme.chars, some lexeme⟩ := by
    rw [← List.append_nil tail] at hfirst
    exact Segment.first_swap (.inr (endsRuns_hash _)) hfirst hchars
  have htext : written (lexeme :: lexemes) =
      [' '] ++ (c :: (tail ++ (hidden ++ written lexemes))) := by
    simp [written, hchars]
  have hrest : ofChars (c :: (tail ++ (hidden ++ written lexemes))) =
      cons ⟨lexeme.chars, some lexeme⟩ (ofChars (hidden ++ written lexemes)) := by
    have hcons : lexeme.chars ++ (hidden ++ written lexemes) =
        c :: (tail ++ (hidden ++ written lexemes)) := by rw [hchars, List.cons_append]
    rw [← hcons]
    exact ofChars_of_first hlexeme hchars
  rw [htext, ofChars_of_first hspace rfl, hrest, ofChars_hidden]
  rfl

/-- A text written for writable lexemes has no fault and holds these lexemes. -/
theorem lexemes_written {lexemes : List Lexeme} (h : ∀ lexeme ∈ lexemes, lexeme.Writable) :
    (ofChars (written lexemes)).fault = none ∧
      (ofChars (written lexemes)).lexemes = lexemes := by
  induction lexemes with
  | nil => exact ⟨rfl, rfl⟩
  | cons lexeme rest ih =>
      obtain ⟨hfault, hlexemes⟩ := ih fun other hother => h other (List.mem_cons_of_mem _ hother)
      rw [ofChars_written_cons (h lexeme List.mem_cons_self)]
      refine ⟨hfault, ?_⟩
      rw [lexemes, prepend, List.filterMap_append, ← lexemes, hlexemes]
      rfl

end Segmentation

end LolMarkup
