import LolMarkup.Proofs.Lexing.Shape
import LolMarkup.Token.Scan

/-!
# Tokens tile the text

`Tiling front rest tokens ending` says that after the characters `front` the text goes on with
`rest`, and that the tokens of a scan lie in `rest` end to end, with nothing but gaps between them.
`Scan.tiling` shows this of every scan. `tokens_tile_text` reads off what it means for the offsets
of the tokens of a text that is free of lexical errors.
-/

namespace LolMarkup

namespace Text

/-- How many 16-bit units the characters take. -/
def extent (cs : List Char) : Int :=
  (cs.flatMap charUnits).length

/-- No characters take no room. -/
@[simp] theorem extent_nil : extent [] = 0 := rfl

/-- A character takes its width in front of the others. -/
@[simp] theorem extent_cons (c : Char) (cs : List Char) :
    extent (c :: cs) = width c + extent cs := by
  simp [extent, length_charUnits]

/-- Characters that follow one another take their room together. -/
@[simp] theorem extent_append (cs ds : List Char) :
    extent (cs ++ ds) = extent cs + extent ds := by
  simp [extent]

/-- Characters do not take less than no room. -/
theorem extent_nonneg (cs : List Char) : 0 ≤ extent cs :=
  Int.natCast_nonneg _

/-- Only the empty text takes no units. -/
theorem extent_pos {cs : List Char} (h : cs ≠ []) : 0 < extent cs := by
  cases cs with
  | nil => exact absurd rfl h
  | cons c cs =>
      have hwidth := width_pos c
      have hrest := extent_nonneg cs
      rw [extent_cons]
      omega

/-- The characters that start between two offsets, when the first of them starts at `offset`. -/
def sliceAt (offset first last : Int) : List Char → List Char
  | [] => []
  | c :: cs =>
      if first ≤ offset ∧ offset < last then c :: sliceAt (offset + width c) first last cs
      else sliceAt (offset + width c) first last cs

/-- The characters of a text that start between two offsets. -/
def slice (first last : Int) (cs : List Char) : List Char :=
  sliceAt 0 first last cs

variable {offset first last : Int}

/-- A slice of two texts together is made of slices of both. -/
theorem sliceAt_append (cs ds : List Char) :
    sliceAt offset first last (cs ++ ds) =
      sliceAt offset first last cs ++ sliceAt (offset + extent cs) first last ds := by
  induction cs generalizing offset with
  | nil => simp [sliceAt]
  | cons c cs ih =>
      have hoffset : offset + extent (c :: cs) = offset + width c + extent cs := by
        rw [extent_cons]
        omega
      simp only [List.cons_append, sliceAt, ih, hoffset]
      split <;> rfl

/-- Characters between the two offsets are all taken. -/
theorem sliceAt_inside {cs : List Char} (hfirst : first ≤ offset)
    (hlast : offset + extent cs ≤ last) : sliceAt offset first last cs = cs := by
  induction cs generalizing offset with
  | nil => rfl
  | cons c cs ih =>
      have hwidth := width_pos c
      have hrest := extent_nonneg cs
      rw [extent_cons] at hlast
      rw [sliceAt, if_pos (by omega), ih (by omega) (by omega)]

/-- Characters that end before the first offset or start after the last one are not taken. -/
theorem sliceAt_outside {cs : List Char}
    (h : offset + extent cs ≤ first ∨ last ≤ offset) : sliceAt offset first last cs = [] := by
  induction cs generalizing offset with
  | nil => rfl
  | cons c cs ih =>
      have hwidth := width_pos c
      have hrest := extent_nonneg cs
      rw [extent_cons] at h
      rw [sliceAt, if_neg (by omega), ih (by omega)]

/-- The slice between the ends of two prefixes of a text is what the longer one has more. -/
theorem slice_eq {text : List Char} (front cs back : List Char) (htext : text = front ++ cs ++ back)
    (hfirst : first = extent front) (hlast : last = extent (front ++ cs)) :
    slice first last text = cs := by
  subst htext hfirst hlast
  rw [slice, sliceAt_append, sliceAt_append, sliceAt_outside (.inl (by omega)),
    sliceAt_inside (by omega) (by rw [extent_append]; omega),
    sliceAt_outside (.inr (by omega))]
  simp

/-- The slice from the end of a prefix to the end of the text is what follows the prefix. -/
theorem slice_rest {text : List Char} (front rest : List Char) (htext : text = front ++ rest)
    (hfirst : first = extent front) : slice first (extent text) text = rest :=
  slice_eq front rest [] (by rw [htext, List.append_nil]) hfirst (by rw [htext])

end Text

namespace Position

/-- A position stands on an earlier line than another, or on the same line further to the left. -/
def Before (p q : Position) : Prop :=
  p.line < q.line ∨ p.line = q.line ∧ p.column < q.column

/-- Coming before is transitive. -/
theorem Before.trans {p q r : Position} (hpq : p.Before q) (hqr : q.Before r) : p.Before r := by
  unfold Before at *
  omega

/-- Passing a character leads on. -/
theorem before_advance (p : Position) (c : Char) : p.Before (p.advance c) := by
  by_cases hline : c = '\n'
  · left
    simp only [advance, if_pos hline]
    omega
  · refine .inr ⟨?_, ?_⟩
    · simp only [advance, if_neg hline]
    · simp only [advance, if_neg hline]
      omega

/-- Characters lead on to a later line or column. -/
theorem before_after (p : Position) {cs : List Char} (h : cs ≠ []) : p.Before (p.after cs) := by
  induction cs generalizing p with
  | nil => exact absurd rfl h
  | cons c cs ih =>
      by_cases hcs : cs = []
      · subst hcs
        exact before_advance p c
      · exact (before_advance p c).trans (ih (p.advance c) hcs)

end Position

/-- An offset grows by the units of the characters passed. -/
theorem Position.offset_after (p : Position) (cs : List Char) :
    (p.after cs).offset = p.offset + Text.extent cs := by
  induction cs generalizing p with
  | nil => simp
  | cons c cs ih =>
      rw [after_cons, ih, Text.extent_cons]
      unfold advance
      split
      next hline =>
          have hwidth : Text.width c = 1 := by
            subst hline
            decide
          rw [hwidth]
          simp only
          omega
      · simp only
        omega

namespace Lexing

/-- A word at the front of the second text does not continue a word at the end of the first. -/
def Apart (front rest : List Char) : Prop :=
  ∀ c d, front.getLast? = some c → rest.head? = some d → d.isAlpha = true → c.isAlphanum = false

/-- A text that ends without a letter or digit can be followed by any word. -/
theorem Apart.of_last {front rest : List Char}
    (h : ∀ c, front.getLast? = some c → c.isAlphanum = false) : Apart front rest :=
  fun c _ hc _ _ => h c hc

/-- A text that does not start with a letter can follow any word. -/
theorem Apart.of_stops {front rest : List Char} (h : Stops Char.isAlpha rest) :
    Apart front rest := by
  intro c d _ hd halpha
  simp [h d hd] at halpha

/-- What stands further back does not matter. -/
theorem Apart.append {front last rest : List Char} (hne : last ≠ []) (h : Apart last rest) :
    Apart (front ++ last) rest := by
  intro c d hc
  obtain ⟨e, he⟩ : ∃ e, last.getLast? = some e := ⟨_, List.getLast?_eq_some_getLast hne⟩
  rw [List.getLast?_append, he, Option.some_or] at hc
  exact h c d (he.trans hc)

/-- Letters and digits are not blank. -/
theorem not_isAlphanum_of_isBlank {c : Char} (h : Text.isBlank c = true) :
    c.isAlphanum = false := by
  simp only [Text.isBlank, Text.blankRanges, List.any_cons, List.any_nil, Bool.or_false,
    Bool.or_eq_true, Bool.and_eq_true, decide_eq_true_eq] at h
  simp only [Char.isAlphanum, Char.isAlpha, Char.isUpper, Char.isLower, Char.isDigit,
    Bool.or_eq_false_iff, Bool.and_eq_false_iff, decide_eq_false_iff_not, UInt32.le_iff_toNat_le]
  have hval : c.val.toNat = c.toNat := rfl
  have hA : ('A' : Char).val.toNat = 65 := rfl
  have hZ : ('Z' : Char).val.toNat = 90 := rfl
  have ha : ('a' : Char).val.toNat = 97 := rfl
  have hz : ('z' : Char).val.toNat = 122 := rfl
  have h0 : ('0' : Char).val.toNat = 48 := rfl
  have h9 : ('9' : Char).val.toNat = 57 := rfl
  omega

/-- Letters may stand in free text and in identifiers. -/
theorem not_isAlpha_of_not_accepted {c : Char}
    (h : Segment.isFree c = false ∨ c.isAlphanum = false) : c.isAlpha = false := by
  rcases h with h | h
  · have hc : c = '\n' ∨ c = '#' := by
      by_cases hline : c = '\n'
      · exact .inl hline
      · simpa [Segment.isFree, hline] using h
    rcases hc with rfl | rfl <;> decide
  · simp only [Char.isAlphanum, Bool.or_eq_false_iff] at h
    exact h.1

/-- A lexeme is written with at least one character. -/
theorem Spells.ne_nil {after chars : List Char} {lexeme : Lexeme} (h : Spells after lexeme chars) :
    chars ≠ [] := by
  cases h with
  | newline => simp
  | name _ hword _ | keyword _ _ hword _ =>
      obtain ⟨c, rest, rfl, -⟩ := hword
      simp
  | hashWord word _ _ hspelling _ =>
      rintro rfl
      cases word <;> simp [HashWord.spelling, Segment.upper] at hspelling
  | text _ _ htrim =>
      rintro rfl
      exact htrim rfl

/-- No lexeme continues a word. -/
theorem Spells.apart {after chars : List Char} {lexeme : Lexeme} (h : Spells after lexeme chars) :
    Apart chars after := by
  cases h with
  | newline =>
      refine .of_last fun c hc => ?_
      cases hc
      decide
  | name _ hword _ | keyword _ _ hword _ =>
      obtain ⟨_, _, -, -, -, hstops⟩ := hword
      exact .of_stops fun c hc => not_isAlpha_of_not_accepted (.inr (hstops c hc))
  | hashWord _ _ _ _ hstops => exact .of_stops hstops
  | text _ hrun _ =>
      exact .of_stops fun c hc => not_isAlpha_of_not_accepted (.inl (hrun.2.2 c hc))

/-- No word continues a gap. -/
theorem Gap.apart {after chars : List Char} (h : Gap after chars) (hne : chars ≠ []) :
    Apart chars after := by
  induction h with
  | nil => exact absurd rfl hne
  | blank c rest hblank _ _ ih =>
      by_cases hrest : rest = []
      · subst hrest
        refine .of_last fun d hd => ?_
        cases hd
        exact not_isAlphanum_of_isBlank hblank
      · show Apart ([c] ++ rest) after
        exact .append hrest (ih hrest)
  | comment comment rest hcomment _ ih =>
      by_cases hrest : rest = []
      · subst hrest
        obtain ⟨_, _, _, -, -, ⟨_, -, -, -, hstops⟩, -⟩ := hcomment
        exact .of_stops hstops
      · exact .append hrest (ih hrest)

/-- The position after the given characters of a text. -/
def reached (front : List Char) : Position :=
  Position.origin.after front

/-- What is reached after more characters is reached by passing these. -/
theorem reached_append (front cs : List Char) :
    reached (front ++ cs) = (reached front).after cs :=
  Position.after_append ..

/-- The offset that is reached is the room that the characters take. -/
@[simp] theorem offset_reached (front : List Char) :
    (reached front).offset = Text.extent front := by
  rw [reached, Position.offset_after]
  exact Int.zero_add _

/-- In the text that goes on with `rest` after `front`, the tokens lie in `rest` end to end with
gaps between them, up to the end of the text or up to a fault. -/
inductive Tiling : List Char → List Char → List Token → Ending → Prop where
  | finish (front gap) : Gap [] gap →
      Tiling front gap [] (.endOfInput (reached (front ++ gap)))
  | fault (front gap c rest fault) : Gap (c :: rest) gap → Segment.first c rest = .error fault →
      Tiling front (gap ++ c :: rest) [] (.fault ⟨fault, reached (front ++ gap)⟩)
  | token (front gap chars after lexeme tokens ending) :
      Gap (chars ++ after) gap → Apart (front ++ gap) (chars ++ after) →
      Spells after lexeme chars → Tiling (front ++ gap ++ chars) after tokens ending →
      Tiling front (gap ++ (chars ++ after))
        (⟨lexeme, reached (front ++ gap), reached (front ++ gap ++ chars)⟩ :: tokens) ending

/-- A gap may stand in front of what is tiled. -/
theorem Tiling.prepend_gap {front gap rest : List Char} {tokens : List Token} {ending : Ending}
    (hgap : Gap rest gap) (h : Tiling (front ++ gap) rest tokens ending) :
    Tiling front (gap ++ rest) tokens ending := by
  cases h with
  | finish _ more hmore =>
      rw [List.append_assoc]
      rw [← List.append_nil rest] at hgap
      exact .finish _ _ (hgap.append hmore)
  | fault _ more c rest fault hmore hfirst =>
      rw [← List.append_assoc gap, List.append_assoc front]
      exact .fault _ _ _ _ _ (hgap.append hmore) hfirst
  | token _ more chars after lexeme tokens _ hmore hapart hspells htail =>
      rw [← List.append_assoc gap, List.append_assoc front]
      rw [List.append_assoc front] at hapart htail
      exact .token _ _ _ _ _ _ _ (hgap.append hmore) hapart hspells htail

end Lexing

namespace Scan

open Lexing

/-- The tokens of every scan tile the text. -/
theorem tiling (cs : List Char) : Tiling [] cs (ofChars cs).tokens (ofChars cs).ending := by
  -- `front` grows as the cut proceeds, and no word may run across its end
  suffices h : ∀ front, Apart front cs →
      Tiling front cs (ofSegmentation (reached front) (Segmentation.ofChars cs)).tokens
        (ofSegmentation (reached front) (Segmentation.ofChars cs)).ending from
    h [] (.of_last (by simp))
  induction cs using Segmentation.ofChars_induction with
  | nil =>
      intro front _
      have hend := Tiling.finish front [] .nil
      rw [List.append_nil] at hend
      exact hend
  | fault c cs fault hfirst =>
      intro front _
      have hend := Tiling.fault front [] c cs fault .nil hfirst
      rw [List.append_nil] at hend
      exact hend
  | segment c cs segment after _ hcs hshape ih =>
      rw [hcs]
      intro front hapart
      cases hshape with
      | gap chars hne hgap =>
          have hrest := ih (front ++ chars) (.append hne (hgap.apart hne))
          rw [reached_append] at hrest
          exact hrest.prepend_gap hgap
      | lexeme chars lexeme hspells =>
          have hrest := ih (front ++ chars) (.append hspells.ne_nil hspells.apart)
          have htoken := Tiling.token front [] chars after lexeme _ _ .nil (by simpa using hapart)
            hspells (by simpa using hrest)
          simp only [List.append_nil, List.nil_append, reached_append] at htoken
          exact htoken

end Scan

/-- The tokens of a source are those of its scan and the end of the input. -/
theorem Source.tokenize_eq_ok_iff {source : Source} {tokens : List Token} :
    source.tokenize = .ok tokens ↔ ∃ position, source.scan.ending = .endOfInput position ∧
      tokens = source.scan.tokens ++ [.atEnd position] := by
  unfold tokenize Scan.allTokens
  cases source.scan.ending with
  | endOfInput position => simp [Except.mapError, eq_comm]
  | fault error => simp [Except.mapError]

namespace Lexing

/-! ## The place of a token -/

/-- The position where the last of the tokens ends, or `start` if there is none. -/
def resumed (start : Position) (tokens : List Token) : Position :=
  (tokens.getLast?.map Token.stop).getD start

/-- Without tokens reading resumes where it starts. -/
@[simp] theorem resumed_nil (start : Position) : resumed start [] = start := rfl

/-- Reading resumes after the last token. -/
@[simp] theorem resumed_cons (start : Position) (token : Token) (tokens : List Token) :
    resumed start (token :: tokens) = resumed token.stop tokens := by
  cases h : tokens.getLast? <;> simp [resumed, List.getLast?_cons, h]

variable {front rest : List Char} {tokens : List Token} {ending : Ending}

/-- A token of a tiling is written for by a part of the text that starts after a gap. -/
theorem Tiling.locate (h : Tiling front rest tokens ending) {before after : List Token}
    {token : Token} (htokens : tokens = before ++ token :: after) :
    ∃ passed gap chars back, rest = passed ++ gap ++ chars ++ back ∧
      resumed (reached front) before = reached (front ++ passed) ∧
      token.start = reached (front ++ passed ++ gap) ∧
      token.stop = reached (front ++ passed ++ gap ++ chars) ∧
      Gap (chars ++ back) gap ∧ Apart (front ++ passed ++ gap) (chars ++ back) ∧
      Spells back token.lexeme chars := by
  induction h generalizing before with
  | finish | fault => simp at htokens
  | token front gap chars back lexeme tokens ending hgap hapart hspells _ ih =>
      cases before with
      | nil =>
          obtain ⟨rfl, rfl⟩ := List.cons.inj htokens
          exact ⟨[], gap, chars, back, by simp, by simp, by simp, by simp, hgap,
            by simpa using hapart, hspells⟩
      | cons first before =>
          obtain ⟨rfl, htail⟩ := List.cons.inj htokens
          obtain ⟨passed, gap', chars', back', rfl, hresumed, hplaced⟩ := ih htail
          refine ⟨gap ++ chars ++ passed, gap', chars', back', by simp, ?_, ?_⟩
          · rw [resumed_cons, hresumed]
            simp
          · simpa using hplaced

/-- After its last token a tiled text ends with a gap. -/
theorem Tiling.locate_end {position : Position}
    (h : Tiling front rest tokens (.endOfInput position)) :
    ∃ passed gap, rest = passed ++ gap ∧ Gap [] gap ∧
      resumed (reached front) tokens = reached (front ++ passed) ∧
      position = reached (front ++ rest) := by
  generalize hending : Ending.endOfInput position = ending at h
  induction h with
  | finish front gap hgap =>
      cases hending
      exact ⟨[], gap, rfl, hgap, by simp, rfl⟩
  | fault => cases hending
  | token front gap chars back lexeme tokens ending _ _ _ _ ih =>
      obtain ⟨passed, gap', rfl, hgap', hresumed, hposition⟩ := ih hending
      refine ⟨gap ++ chars ++ passed, gap', by simp, hgap', ?_, ?_⟩
      · rw [resumed_cons, hresumed]
        simp
      · rw [hposition]
        simp

/-- Tokens start before the fault that ends the scan. -/
theorem Tiling.before_fault {error : LexicalError}
    (h : Tiling front rest tokens (.fault error)) :
    (∃ passed, error.position = reached (front ++ passed)) ∧
      ∀ token ∈ tokens, token.start.Before error.position := by
  generalize hending : Ending.fault error = ending at h
  induction h with
  | finish => cases hending
  | fault front gap c rest fault _ _ =>
      cases hending
      exact ⟨⟨gap, rfl⟩, by simp⟩
  | token front gap chars back lexeme tokens ending _ _ hspells _ ih =>
      obtain ⟨⟨passed, hposition⟩, htokens⟩ := ih hending
      refine ⟨⟨gap ++ chars ++ passed, by simpa using hposition⟩, ?_⟩
      intro token hmem
      rcases List.mem_cons.mp hmem with rfl | hmem
      · have hne : chars ++ passed ≠ [] := by simp [hspells.ne_nil]
        show (reached (front ++ gap)).Before error.position
        rw [hposition, List.append_assoc (front ++ gap), reached_append _ (chars ++ passed)]
        exact Position.before_after _ hne
      · exact htokens token hmem

/-- What a token takes of the text: nothing at the end of the input, and otherwise the characters
that are written for its lexeme. -/
def Takes (back : List Char) (lexeme : Lexeme) (chars : List Char) : Prop :=
  (lexeme = .eof ∧ chars = [] ∧ back = []) ∨ Spells back lexeme chars

/-- A token before the end of the input takes what is written for its lexeme. -/
theorem Takes.spells {back chars : List Char} {lexeme : Lexeme} (h : Takes back lexeme chars)
    (heof : lexeme ≠ .eof) : Spells back lexeme chars := by
  rcases h with ⟨hlexeme, -⟩ | hspells
  · exact absurd hlexeme heof
  · exact hspells

/-- Every token of a text stands after a gap, and the gap after what the tokens before it take. -/
theorem locate_token {source : Source} {tokens before after : List Token} {token : Token}
    (h : source.tokenize = .ok tokens) (htokens : tokens = before ++ token :: after) :
    ∃ passed gap chars back, source.text.toList = passed ++ gap ++ chars ++ back ∧
      resumed .origin before = reached passed ∧ token.start = reached (passed ++ gap) ∧
      token.stop = reached (passed ++ gap ++ chars) ∧ Gap (chars ++ back) gap ∧
      Apart (passed ++ gap) (chars ++ back) ∧ Takes back token.lexeme chars := by
  obtain ⟨position, hending, rfl⟩ := Source.tokenize_eq_ok_iff.mp h
  have htiling := Scan.tiling source.text.toList
  rcases List.eq_nil_or_concat after with rfl | ⟨after, last, rfl⟩
  · -- the token is the end of the input
    obtain ⟨rfl, hlast⟩ := List.append_inj' htokens rfl
    cases hlast
    change Tiling [] _ source.scan.tokens source.scan.ending at htiling
    rw [hending] at htiling
    obtain ⟨passed, gap, htext, hgap, hresumed, rfl⟩ := htiling.locate_end
    refine ⟨passed, gap, [], [], by simpa using htext, hresumed, ?_, ?_, hgap, ?_,
      .inl ⟨rfl, rfl, rfl⟩⟩
    · simp [Token.atEnd, htext]
    · simp [Token.atEnd, htext]
    · exact .of_stops (by simp [Stops])
  · rw [List.concat_eq_append, ← List.cons_append, ← List.append_assoc] at htokens
    obtain ⟨htokens, -⟩ := List.append_inj' htokens rfl
    obtain ⟨passed, gap, chars, back, htext, hresumed, hstart, hstop, hgap, hapart, hspells⟩ :=
      htiling.locate htokens
    exact ⟨passed, gap, chars, back, htext, hresumed, hstart, hstop, hgap, hapart, .inr hspells⟩

/-- The end of the input is the last token and no other, and it stands at the end of the text. -/
theorem last_token {source : Source} {tokens : List Token} (h : source.tokenize = .ok tokens) :
    ∃ earlier last, tokens = earlier ++ [last] ∧ last.lexeme = .eof ∧
      last.start = reached source.text.toList ∧ last.stop = reached source.text.toList ∧
      ∀ token ∈ earlier, token.lexeme ≠ .eof := by
  obtain ⟨position, hending, rfl⟩ := Source.tokenize_eq_ok_iff.mp h
  have htiling : Tiling [] _ source.scan.tokens source.scan.ending :=
    Scan.tiling source.text.toList
  refine ⟨_, _, rfl, rfl, ?_⟩
  have hnone : ∀ token ∈ source.scan.tokens, token.lexeme ≠ .eof := by
    intro token hmem heof
    obtain ⟨before, after, htokens⟩ := List.append_of_mem hmem
    obtain ⟨_, _, _, _, -, -, -, -, -, -, hspells⟩ := htiling.locate htokens
    rw [heof] at hspells
    cases hspells
  rw [hending] at htiling
  obtain ⟨_, _, -, -, -, hposition⟩ := htiling.locate_end
  exact ⟨hposition, hposition, hnone⟩

/-- Every offset before the last token lies in a token or in the gap in front of one. -/
theorem in_token_or_gap {tokens : List Token} {start : Position} {last : Token} {offset : Int}
    (hstart : start.offset ≤ offset) (hlast : tokens.getLast? = some last)
    (hoffset : offset < last.start.offset) :
    (∃ token ∈ tokens, token.start.offset ≤ offset ∧ offset < token.stop.offset) ∨
    ∃ before token after, tokens = before ++ token :: after ∧
      (resumed start before).offset ≤ offset ∧ offset < token.start.offset := by
  induction tokens generalizing start with
  | nil => simp at hlast
  | cons token tokens ih =>
      by_cases hgap : offset < token.start.offset
      · exact .inr ⟨[], token, tokens, rfl, hstart, hgap⟩
      by_cases htoken : offset < token.stop.offset
      · exact .inl ⟨token, by simp, by omega, htoken⟩
      have hrest : tokens.getLast? = some last := by
        cases tokens with
        | nil =>
            obtain rfl : token = last := by simpa using hlast
            omega
        | cons next tokens => simpa [List.getLast?_cons_cons] using hlast
      have hstop : token.stop.offset ≤ offset := by omega
      rcases ih hstop hrest with
        ⟨found, hmem, hfound⟩ | ⟨before, found, after, rfl, hfound⟩
      · exact .inl ⟨found, by simp [hmem], hfound⟩
      · refine .inr ⟨token :: before, found, after, rfl, ?_⟩
        simpa using hfound

/-- The tokens tile the text. Offsets count 16-bit units. -/
structure TilesText (text : List Char) (tokens : List Token) : Prop where
  /-- The last token is the only end of the input, and it stands at the end of the text. -/
  ends : ∃ earlier last, tokens = earlier ++ [last] ∧ last.lexeme = .eof ∧
    last.start.offset = Text.extent text ∧ last.stop.offset = Text.extent text ∧
    ∀ token ∈ earlier, token.lexeme ≠ .eof
  /-- Every other token takes at least one unit. -/
  advances : ∀ token ∈ tokens, token.lexeme ≠ .eof → token.start.offset < token.stop.offset
  /-- No token starts before the one in front of it ends. -/
  ordered : ∀ before token after, tokens = before ++ token :: after →
    (resumed .origin before).offset ≤ token.start.offset
  /-- Between two tokens there are blank characters and comments only. -/
  gaps : ∀ before token after, tokens = before ++ token :: after →
    Gap (Text.slice token.start.offset (Text.extent text) text)
      (Text.slice (resumed .origin before).offset token.start.offset text)
  /-- Every other token is what its slice of the text is written for. -/
  spelled : ∀ token ∈ tokens, token.lexeme ≠ .eof →
    Spells (Text.slice token.stop.offset (Text.extent text) text) token.lexeme
      (Text.slice token.start.offset token.stop.offset text)
  /-- No word is cut in two: what starts with a letter does not follow a letter or digit. -/
  apart : ∀ token ∈ tokens,
    Apart (Text.slice 0 token.start.offset text)
      (Text.slice token.start.offset (Text.extent text) text)
  /-- Every character lies in a token or in a gap between two tokens. -/
  covers : ∀ front c back, text = front ++ c :: back →
    (∃ token ∈ tokens,
      token.start.offset ≤ Text.extent front ∧ Text.extent front < token.stop.offset) ∨
    ∃ before token after, tokens = before ++ token :: after ∧
      (resumed .origin before).offset ≤ Text.extent front ∧
      Text.extent front < token.start.offset

end Lexing

open Lexing

/-- The tokens of a text without lexical errors tile it. -/
theorem tokens_tile_text {source : Source} {tokens : List Token}
    (h : source.tokenize = .ok tokens) : TilesText source.text.toList tokens where
  ends := by
    obtain ⟨earlier, last, htokens, heof, hstart, hstop, hnone⟩ := last_token h
    exact ⟨earlier, last, htokens, heof, by simp [hstart], by simp [hstop], hnone⟩
  advances := by
    intro token hmem heof
    obtain ⟨before, after, htokens⟩ := List.append_of_mem hmem
    obtain ⟨passed, gap, chars, back, -, -, hstart, hstop, -, -, htakes⟩ := locate_token h htokens
    have hpos := Text.extent_pos (htakes.spells heof).ne_nil
    rw [hstart, hstop, offset_reached, offset_reached, Text.extent_append (passed ++ gap)]
    omega
  ordered := by
    intro before token after htokens
    obtain ⟨passed, gap, _, _, -, hresumed, hstart, -⟩ := locate_token h htokens
    have hnonneg := Text.extent_nonneg gap
    rw [hresumed, hstart, offset_reached, offset_reached, Text.extent_append]
    omega
  gaps := by
    intro before token after htokens
    obtain ⟨passed, gap, chars, back, htext, hresumed, hstart, -, hgap, -⟩ :=
      locate_token h htokens
    have hslice : Text.slice (resumed .origin before).offset token.start.offset
        source.text.toList = gap :=
      Text.slice_eq passed gap (chars ++ back) (by simp [htext]) (by simp [hresumed])
        (by simp [hstart])
    have hafter : Text.slice token.start.offset (Text.extent source.text.toList)
        source.text.toList = chars ++ back :=
      Text.slice_rest (passed ++ gap) (chars ++ back) (by simp [htext]) (by simp [hstart])
    rwa [hslice, hafter]
  spelled := by
    intro token hmem heof
    obtain ⟨before, after, htokens⟩ := List.append_of_mem hmem
    obtain ⟨passed, gap, chars, back, htext, -, hstart, hstop, -, -, htakes⟩ :=
      locate_token h htokens
    have hslice : Text.slice token.start.offset token.stop.offset source.text.toList = chars :=
      Text.slice_eq (passed ++ gap) chars back htext (by simp [hstart]) (by simp [hstop])
    have hafter : Text.slice token.stop.offset (Text.extent source.text.toList)
        source.text.toList = back :=
      Text.slice_rest (passed ++ gap ++ chars) back htext (by simp [hstop])
    rw [hslice, hafter]
    exact htakes.spells heof
  apart := by
    intro token hmem
    obtain ⟨before, after, htokens⟩ := List.append_of_mem hmem
    obtain ⟨passed, gap, chars, back, htext, -, hstart, -, -, hapart, -⟩ := locate_token h htokens
    have hbefore : Text.slice 0 token.start.offset source.text.toList = passed ++ gap :=
      Text.slice_eq [] (passed ++ gap) (chars ++ back) (by simp [htext]) rfl (by simp [hstart])
    have hafter : Text.slice token.start.offset (Text.extent source.text.toList)
        source.text.toList = chars ++ back :=
      Text.slice_rest (passed ++ gap) (chars ++ back) (by simp [htext]) (by simp [hstart])
    rwa [hbefore, hafter]
  covers := by
    intro front c back htext
    obtain ⟨earlier, last, rfl, -, hstart, -, -⟩ := last_token h
    have hwidth := Text.width_pos c
    have hfront := Text.extent_nonneg front
    have hback := Text.extent_nonneg back
    have hlast : (earlier ++ [last]).getLast? = some last := List.getLast?_concat
    refine in_token_or_gap hfront hlast ?_
    rw [hstart, offset_reached, htext, Text.extent_append, Text.extent_cons]
    omega

/-- A text with a comment over two lines, free text of two units to a character and two lexemes
that touch is tiled. -/
theorem tokens_tile_text_commented :
    ∃ tokens, (Source.mk "doc.lol" "#hai #OBTW #x\n#tldr\n😀 #IT IZ a1").tokenize = .ok tokens ∧
      tokens.length = 6 ∧ TilesText "#hai #OBTW #x\n#tldr\n😀 #IT IZ a1".toList tokens := by
  have h : (Source.mk "doc.lol" "#hai #OBTW #x\n#tldr\n😀 #IT IZ a1").tokenize =
      .ok [⟨.hashWord .hai, ⟨1, 1, 0⟩, ⟨1, 5, 4⟩⟩, ⟨.newline, ⟨2, 6, 19⟩, ⟨3, 1, 20⟩⟩,
        ⟨.text "😀", ⟨3, 1, 20⟩, ⟨3, 3, 23⟩⟩, ⟨.hashWord .itIz, ⟨3, 3, 23⟩, ⟨3, 9, 29⟩⟩,
        ⟨.name "a1", ⟨3, 10, 30⟩, ⟨3, 12, 32⟩⟩, ⟨.eof, ⟨3, 12, 32⟩, ⟨3, 12, 32⟩⟩] := by rfl
  exact ⟨_, h, rfl, tokens_tile_text h⟩

end LolMarkup
