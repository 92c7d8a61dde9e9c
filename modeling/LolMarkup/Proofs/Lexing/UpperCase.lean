import LolMarkup.Proofs.Lexing.Blanks
import LolMarkup.Proofs.Reading.Refusal

/-!
# Texts in upper case

Upper case commutes with cutting a text. Whether a character belongs to a run does not depend on its
case (`Lexing.Caseless`), hash words, keywords and the ends of comments are recognised by their
upper case, and names and free text keep the letters they are written with. So the scan of a text in
upper case is the scan of the text with its names and free text in upper case
(`Scan.ofChars_raised`).
-/

namespace LolMarkup

namespace Lexing

/-- Membership in a class of characters does not depend on letter case. -/
def Caseless (accept : Char → Bool) : Prop :=
  ∀ c, accept c.toUpper = accept c

/-- A class is caseless if it has all letters or none. -/
theorem caseless_of_letters {accept : Char → Bool} (value : Bool)
    (h : ∀ c, c.isAlpha = true → accept c = value) : Caseless accept := by
  intro c
  by_cases hletter : c.isAlpha = true
  · rw [h c hletter, h c.toUpper (by rwa [Char.isAlpha_toUpper_eq_isAlpha])]
  · rw [toUpper_of_not_isAlpha (Bool.eq_false_iff.mpr hletter)]

/-- Whether a character is a letter does not depend on its case. -/
theorem caseless_isAlpha : Caseless Char.isAlpha :=
  Char.isAlpha_toUpper_eq_isAlpha

/-- Whether a character is a letter or a digit does not depend on its case. -/
theorem caseless_isAlphanum : Caseless Char.isAlphanum :=
  caseless_of_letters true fun c h => by rw [Char.isAlphanum, h, Bool.true_or]

/-- Whether a character is a space or a tab does not depend on its case. -/
theorem caseless_isSeparator : Caseless Segment.isSeparator :=
  caseless_of_letters false fun _ => Segmentation.not_isSeparator_of_isAlpha

/-- Being a character that is no letter does not depend on case. -/
theorem caseless_eq {d : Char} (hd : d.isAlpha = false) : Caseless (· = d) := by
  intro c
  rw [decide_eq_decide]
  exact toUpper_eq_iff hd

/-- Whether a character may stand in free text does not depend on its case. -/
theorem caseless_isFree : Caseless Segment.isFree := by
  intro c
  have hline : decide (c.toUpper = '\n') = decide (c = '\n') := caseless_eq (by decide) c
  have hhash : decide (c.toUpper = '#') = decide (c = '#') := caseless_eq (by decide) c
  simp only [Segment.isFree, ne_eq, decide_not, hline, hhash]

/-- Whether a character is blank does not depend on its case. -/
theorem caseless_isBlank : Caseless Text.isBlank :=
  caseless_of_letters false fun c hc => by
    by_contra hblank
    rw [Bool.not_eq_false] at hblank
    exact absurd hc (Bool.eq_false_iff.mp (not_isAlpha_of_isBlank hblank))

variable {accept : Char → Bool}

/-- A class that does not depend on case takes the same run in upper case. -/
theorem takeWhile_raised (h : Caseless accept) (cs : List Char) :
    (cs.map Char.toUpper).takeWhile accept = (cs.takeWhile accept).map Char.toUpper := by
  rw [List.takeWhile_map, show accept ∘ Char.toUpper = accept from funext h]

/-- A class that does not depend on case leaves the same rest in upper case. -/
theorem dropWhile_raised (h : Caseless accept) (cs : List Char) :
    (cs.map Char.toUpper).dropWhile accept = (cs.dropWhile accept).map Char.toUpper := by
  rw [List.dropWhile_map, show accept ∘ Char.toUpper = accept from funext h]

end Lexing

open Lexing

namespace Text

/-- Trimming removes the same characters in upper case. -/
theorem trim_raised (cs : List Char) :
    trim (cs.map Char.toUpper) = (trim cs).map Char.toUpper := by
  simp only [trim, trimEnd, dropWhile_raised caseless_isBlank, ← List.map_reverse]

/-- A character takes the same room in upper case. -/
theorem width_toUpper (c : Char) : width c.toUpper = width c := by
  have hbasic : Caseless fun c => decide (c.toNat < 0x10000) := by
    refine caseless_of_letters true fun c hc => ?_
    simp only [Char.isAlpha, Char.isUpper, Char.isLower, Bool.or_eq_true, Bool.and_eq_true,
      decide_eq_true_eq, UInt32.le_iff_toNat_le] at hc
    have hval : c.val.toNat = c.toNat := rfl
    have hZ : ('Z' : Char).val.toNat = 90 := rfl
    have hz : ('z' : Char).val.toNat = 122 := rfl
    rw [decide_eq_true_eq]
    omega
  have hsame := decide_eq_decide.mp (hbasic c)
  simp only [width, hsame]

end Text

/-- The lexeme with its name or free text in upper case. -/
def Lexeme.raised : Lexeme → Lexeme
  | text content => text (Segment.upper content.toList)
  | name identifier => name (Segment.upper identifier.toList)
  | lexeme => lexeme

namespace Segment

/-- The segment in upper case. -/
def raised (segment : Segment) : Segment :=
  ⟨segment.chars.map Char.toUpper, segment.lexeme.map Lexeme.raised⟩

/-- The upper case of the upper case is the upper case. -/
theorem map_toUpper_toUpper (cs : List Char) :
    (cs.map Char.toUpper).map Char.toUpper = cs.map Char.toUpper := by
  rw [List.map_map]
  exact List.map_congr_left fun c _ => Char.toUpper_toUpper_eq_toUpper c

/-- The spelling of a text is that of the text in upper case. -/
theorem upper_raised (cs : List Char) : upper (cs.map Char.toUpper) = upper cs := by
  rw [upper, map_toUpper_toUpper, upper]

/-- A hash word is spelled in upper case. -/
theorem hashWord_raised (cs : List Char) :
    hashWord (cs.map Char.toUpper) =
      ((hashWord cs).1, (hashWord cs).2.map Char.toUpper) := by
  simp only [hashWord, takeWhile_raised caseless_isAlpha, dropWhile_raised caseless_isAlpha,
    upper_raised]
  cases HashWord.partner? (upper (cs.takeWhile Char.isAlpha)) with
  | none => rfl
  | some partner =>
      cases cs.dropWhile Char.isAlpha with
      | nil => rfl
      | cons c rest =>
          by_cases hspace : c = ' '
          · subst hspace
            have hboth (first second : List Char) :
                first.map Char.toUpper ++ ' ' :: second.map Char.toUpper =
                  (first ++ ' ' :: second).map Char.toUpper := by
              rw [List.map_append, List.map_cons]
              rfl
            simp only [List.map_cons, show ' '.toUpper = ' ' from rfl,
              takeWhile_raised caseless_isAlpha, hboth, upper_raised]
          · have hraised : c.toUpper ≠ ' ' := (toUpper_eq_iff (by decide)).not.mpr hspace
            simp [hspace, hraised]

/-- In upper case a comment goes as far as before. -/
theorem comment_raised (cs : List Char) :
    comment (cs.map Char.toUpper) = (comment cs).map (List.map Char.toUpper) := by
  induction cs with
  | nil => rfl
  | cons c cs ih =>
      simp only [List.map_cons, comment, takeWhile_raised caseless_isAlpha, upper_raised,
        toUpper_eq_iff (show '#'.isAlpha = false by decide), ih]
      split
      · rfl
      · simp only [Option.map_map]
        rfl

/-- A segment that starts at a `#` is recognised by its upper case. -/
theorem ofHash_raised (cs : List Char) :
    ofHash (cs.map Char.toUpper) = (ofHash cs).map raised := by
  simp only [ofHash, hashWord_raised, List.length_map, ← List.map_drop, comment_raised]
  cases HashWord.ofSpelling? ("#" ++ (hashWord cs).1) with
  | none => rfl
  | some word =>
      cases word with
      | obtw =>
          cases comment (cs.drop (hashWord cs).2.length) with
          | none => rfl
          | some body =>
              simp [Except.map, raised]
      | _ => rfl

/-- A word in upper case makes the same segment in upper case. -/
theorem ofWord_raised (chars : List Char) :
    ofWord (chars.map Char.toUpper) = (ofWord chars).raised := by
  simp only [ofWord, upper_raised]
  cases Keyword.ofSpelling? (upper chars) with
  | none => simp [raised, Lexeme.raised, upper]
  | some word => rfl

/-- Free text in upper case makes the same segment in upper case. -/
theorem ofFree_raised (chars : List Char) :
    ofFree (chars.map Char.toUpper) = (ofFree chars).raised := by
  simp only [ofFree, Text.trim_raised, List.isEmpty_map]
  split
  · rfl
  · simp [raised, Lexeme.raised, upper]

/-- The first segment of a text in upper case is the first segment in upper case. -/
theorem first_raised (c : Char) (cs : List Char) :
    first c.toUpper (cs.map Char.toUpper) = (first c cs).map raised := by
  simp only [first, caseless_isSeparator c, toUpper_eq_iff (show '\n'.isAlpha = false by decide),
    toUpper_eq_iff (show '#'.isAlpha = false by decide), Char.isAlpha_toUpper_eq_isAlpha,
    takeWhile_raised caseless_isSeparator, takeWhile_raised caseless_isAlphanum,
    takeWhile_raised caseless_isFree, ofHash_raised, ← List.map_cons, ofWord_raised, ofFree_raised]
  split
  · rfl
  split
  · rename_i hline
    subst hline
    rfl
  split
  · rfl
  split
  · rfl
  · rfl

end Segment

namespace Segmentation

/-- The segments in upper case. -/
def raised (cut : Segmentation) : Segmentation :=
  ⟨cut.segments.map Segment.raised, cut.fault⟩

/-- Cutting a text in upper case gives the segments in upper case. -/
theorem ofChars_raised (cs : List Char) :
    ofChars (cs.map Char.toUpper) = (ofChars cs).raised := by
  induction cs using ofChars_induction with
  | nil => rfl
  | fault c cs fault hfirst =>
      have hraised : Segment.first c.toUpper (cs.map Char.toUpper) = .error fault := by
        rw [Segment.first_raised, hfirst]
        rfl
      rw [List.map_cons, ofChars_of_error hraised]
      rfl
  | segment c cs segment after hfirst hcs _ ih =>
      have hraised : Segment.first c.toUpper (cs.map Char.toUpper) = .ok segment.raised := by
        rw [Segment.first_raised, hfirst]
        rfl
      have hrest : ((c :: cs).map Char.toUpper).drop segment.raised.chars.length =
          after.map Char.toUpper := by
        rw [hcs, List.map_append]
        exact List.drop_left
      rw [List.map_cons, ofChars_of_ok hraised, ← List.map_cons, hrest, ih]
      rfl

end Segmentation

/-! ## Scans -/

/-- Upper case does not change where characters end. -/
theorem Position.after_raised (position : Position) (cs : List Char) :
    position.after (cs.map Char.toUpper) = position.after cs := by
  induction cs generalizing position with
  | nil => rfl
  | cons c cs ih =>
      have hadvance : position.advance c.toUpper = position.advance c := by
        simp only [advance, toUpper_eq_iff (show '\n'.isAlpha = false by decide),
          Text.width_toUpper]
      rw [List.map_cons, after_cons, after_cons, hadvance, ih]

/-- The token with its name or free text in upper case. -/
def Token.raised (token : Token) : Token :=
  { token with lexeme := token.lexeme.raised }

namespace Scan

/-- The scan with names and free text in upper case. -/
def raised (scan : Scan) : Scan :=
  { scan with tokens := scan.tokens.map Token.raised }

/-- Segments in upper case are placed where they are. -/
theorem placed_raised (position : Position) (segments : List Segment) :
    placed position (segments.map Segment.raised) =
      (placed position segments).map Token.raised := by
  induction segments generalizing position with
  | nil => rfl
  | cons segment segments ih =>
      have hafter : position.after segment.raised.chars = position.after segment.chars :=
        position.after_raised segment.chars
      rw [List.map_cons, placed_cons, placed_cons, List.map_append, hafter, ih]
      congr 1
      cases hlexeme : segment.lexeme <;> simp [Segment.raised, hlexeme, Token.raised]

/-- Scanning a text in upper case gives the scan with names and free text in upper case. -/
theorem ofChars_raised (cs : List Char) : ofChars (cs.map Char.toUpper) = (ofChars cs).raised := by
  have hend (segments : List Segment) : endPosition .origin (segments.map Segment.raised) =
      endPosition .origin segments := by
    rw [endPosition_eq, endPosition_eq, List.flatMap_map,
      ← Position.after_raised .origin (segments.flatMap Segment.chars), List.map_flatMap]
    rfl
  simp only [ofChars, ofSegmentation, Segmentation.ofChars_raised, Segmentation.raised,
    placed_raised, hend, raised]

end Scan

end LolMarkup
