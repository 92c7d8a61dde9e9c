import LolMarkup.Proofs.Lexing.Blanks
import LolMarkup.Proofs.Reading.Refusal

/-!
# Scanning line by line

A line feed ends every run as the end of the input does, so a text without lexical errors is cut in
the same way when another line follows (`Segmentation.ofChars_line`). Positions are counted from the
start of their line: putting lines in front of a text moves its positions down and changes no column
(`Scan.ofSegmentation_moved`). Hence `tokenize_line_local`: what follows a line feed is scanned as a
text of its own.
-/

namespace LolMarkup

/-- The position after this many more lines, which take this many units. -/
def Position.moved (lines units : Int) (p : Position) : Position :=
  ⟨p.line + lines, p.column, p.offset + units⟩

/-- The token after this many more lines, which take this many units. -/
def Token.moved (lines units : Int) (token : Token) : Token :=
  ⟨token.lexeme, token.start.moved lines units, token.stop.moved lines units⟩

/-- The token of a line feed at a position. -/
def Token.lineFeed (p : Position) : Token :=
  ⟨.newline, p, p.advance '\n'⟩

/-- The lexical error after this many more lines, which take this many units. -/
def LexicalError.moved (lines units : Int) (e : LexicalError) : LexicalError :=
  ⟨e.fault, e.position.moved lines units⟩

/-- The diagnostic after this many more lines. -/
def Diagnostic.moved (lines : Int) (d : Diagnostic) : Diagnostic :=
  { d with line := d.line.map (· + lines) }

/-- The ending of a scan after this many more lines, which take this many units. -/
def Ending.moved (lines units : Int) : Ending → Ending
  | endOfInput position => .endOfInput (position.moved lines units)
  | fault error => .fault (error.moved lines units)

/-- The scan after this many more lines, which take this many units. -/
def Scan.moved (lines units : Int) (scan : Scan) : Scan :=
  ⟨scan.tokens.map (Token.moved lines units), scan.ending.moved lines units⟩

open Lexing

/-! ## Positions -/

namespace Position

variable {lines units : Int}

/-- Passing a character on later lines is passing it before and then moving on. -/
theorem advance_moved (p : Position) (c : Char) :
    (p.moved lines units).advance c = (p.advance c).moved lines units := by
  unfold advance moved
  split
  · simp only [mk.injEq, true_and]
    omega
  · simp only [mk.injEq, true_and]
    omega

/-- Passing characters on later lines is passing them before and then moving on. -/
theorem after_moved (p : Position) (cs : List Char) :
    (p.moved lines units).after cs = (p.after cs).moved lines units := by
  induction cs generalizing p with
  | nil => rfl
  | cons c cs ih => rw [after_cons, after_cons, advance_moved, ih]

/-- A line grows by the line feeds passed. -/
theorem line_after (p : Position) (cs : List Char) :
    (p.after cs).line = p.line + cs.count '\n' := by
  induction cs generalizing p with
  | nil => simp
  | cons c cs ih =>
      rw [after_cons, ih, List.count_cons]
      by_cases hline : c = '\n'
      · simp only [advance, hline, beq_self_eq_true, if_true]
        omega
      · simp only [advance, if_neg hline, beq_iff_eq, Nat.add_zero]

/-- After a line feed the text starts again, further down. -/
theorem after_line (cs : List Char) :
    origin.after (cs ++ ['\n']) = origin.moved (1 + cs.count '\n') (Text.extent cs + 1) := by
  have hline := line_after origin cs
  have hoffset := offset_after origin cs
  rw [after_append]
  show Position.mk ((origin.after cs).line + 1) 1 ((origin.after cs).offset + 1) = _
  rw [hline, hoffset]
  simp only [origin, moved, mk.injEq, true_and]
  omega

end Position

/-! ## Segments and tokens -/

namespace Segmentation

/-- A text without faults is cut up to its end. -/
theorem flatMap_chars_segments {cs : List Char} (h : (ofChars cs).fault = none) :
    (ofChars cs).segments.flatMap Segment.chars = cs := by
  induction cs using ofChars_induction with
  | nil => rfl
  | fault => cases h
  | segment c cs segment after _ hcs _ ih =>
      show segment.chars ++ (ofChars after).segments.flatMap Segment.chars = _
      rw [ih h, hcs]

/-- A text without faults is cut in the same way when another line follows. -/
theorem ofChars_line {cs : List Char} (h : (ofChars cs).fault = none) (ds : List Char) :
    ofChars (cs ++ '\n' :: ds) =
      prepend (ofChars cs).segments (cons ⟨['\n'], some .newline⟩ (ofChars ds)) := by
  have hcut : ofChars cs = ⟨(ofChars cs).segments ++ [], none⟩ := by
    rw [List.append_nil, ← h]
  have hresume := ofChars_resume hcut (endsRuns_newline ds)
  rwa [flatMap_chars_segments h, ofChars_newline] at hresume

end Segmentation

namespace Scan

/-- Segments are placed after those in front of them. -/
theorem placed_append (position : Position) (front back : List Segment) :
    placed position (front ++ back) =
      placed position front ++ placed (endPosition position front) back := by
  induction front generalizing position with
  | nil => rfl
  | cons segment front ih =>
      rw [List.cons_append, placed, placed]
      cases segment.lexeme with
      | none => exact ih _
      | some lexeme => exact congrArg (_ :: ·) (ih _)

/-- Segments in front of a segmentation put their tokens in front of its tokens. -/
theorem ofSegmentation_prepend (position : Position) (front : List Segment) (cut : Segmentation) :
    ofSegmentation position (.prepend front cut) =
      { ofSegmentation (endPosition position front) cut with
        tokens := placed position front ++
          (ofSegmentation (endPosition position front) cut).tokens } := by
  have hend : endPosition position (front ++ cut.segments) =
      endPosition (endPosition position front) cut.segments := List.foldl_append
  unfold ofSegmentation Segmentation.prepend
  rw [hend, placed_append]

variable {lines units : Int}

/-- On later lines the tokens of segments are moved by these lines. -/
theorem placed_moved (position : Position) (segments : List Segment) :
    placed (position.moved lines units) segments =
      (placed position segments).map (Token.moved lines units) := by
  induction segments generalizing position with
  | nil => rfl
  | cons segment segments ih =>
      rw [placed, placed, Position.after_moved, ih]
      cases segment.lexeme <;> rfl

/-- On later lines segments end further on by these lines. -/
theorem endPosition_moved (position : Position) (segments : List Segment) :
    endPosition (position.moved lines units) segments =
      (endPosition position segments).moved lines units := by
  induction segments generalizing position with
  | nil => rfl
  | cons segment segments ih =>
      have hnext := ih (position.after segment.chars)
      rwa [← Position.after_moved] at hnext

/-- A text that starts further down is scanned in the same way. -/
theorem ofSegmentation_moved (position : Position) (cut : Segmentation) :
    ofSegmentation (position.moved lines units) cut =
      (ofSegmentation position cut).moved lines units := by
  unfold ofSegmentation moved
  rw [placed_moved, endPosition_moved]
  cases cut.fault <;> rfl

end Scan

/-! ## Two texts -/

/-- Two texts with a line feed between them have the tokens of both, and end as the second does. -/
theorem Scan.ofChars_line {cs : List Char} {position : Position}
    (h : (ofChars cs).ending = .endOfInput position) (ds : List Char) :
    (ofChars (cs ++ '\n' :: ds)).tokens = (ofChars cs).tokens ++ .lineFeed position ::
        (ofChars ds).tokens.map (Token.moved (1 + cs.count '\n') (Text.extent cs + 1)) ∧
      (ofChars (cs ++ '\n' :: ds)).ending =
        (ofChars ds).ending.moved (1 + cs.count '\n') (Text.extent cs + 1) := by
  have hfault : (Segmentation.ofChars cs).fault = none := by
    cases hfault : (Segmentation.ofChars cs).fault with
    | none => rfl
    | some fault =>
        rw [ofChars, ofSegmentation, hfault] at h
        cases h
  have hposition : endPosition .origin (Segmentation.ofChars cs).segments = position := by
    rw [ofChars, ofSegmentation, hfault] at h
    exact Ending.endOfInput.inj h
  have hline : position.advance '\n' =
      Position.origin.moved (1 + cs.count '\n') (Text.extent cs + 1) := by
    rw [← Position.after_line, Position.after_append, ← hposition, endPosition_eq,
      Segmentation.flatMap_chars_segments hfault]
    rfl
  have hnext : ofSegmentation (position.advance '\n') (Segmentation.ofChars ds) =
      (ofChars ds).moved (1 + cs.count '\n') (Text.extent cs + 1) := by
    rw [hline, ofSegmentation_moved]
    rfl
  have hscan : ofChars (cs ++ '\n' :: ds) = ⟨(ofChars cs).tokens ++ .lineFeed position ::
      (ofSegmentation (position.advance '\n') (Segmentation.ofChars ds)).tokens,
      (ofSegmentation (position.advance '\n') (Segmentation.ofChars ds)).ending⟩ := by
    rw [ofChars, Segmentation.ofChars_line hfault, ofSegmentation_prepend, hposition]
    rfl
  rw [hscan, hnext]
  exact ⟨rfl, rfl⟩

/-- After a text without lexical errors and a line feed, another text is scanned as if it stood
alone. The tokens are those of the first text up to its end, a line feed there, and those of the
second text further down. A lexical error of the second text stands further down too. -/
theorem tokenize_line_local {path first : String} {tokens : List Token}
    (h : (Source.mk path first).tokenize = .ok tokens) (second : String) :
    ∃ earlier last, tokens = earlier ++ [last] ∧ last.lexeme = .eof ∧
      last.start.offset = Text.extent first.toList ∧
      ((∃ joined, (Source.mk path (first ++ "\n" ++ second)).tokenize = .ok joined) ↔
        ∃ later, (Source.mk path second).tokenize = .ok later) ∧
      (∀ later, (Source.mk path second).tokenize = .ok later →
        (Source.mk path (first ++ "\n" ++ second)).tokenize =
          .ok (earlier ++ .lineFeed last.start :: later.map
            (Token.moved (1 + first.toList.count '\n') (Text.extent first.toList + 1)))) ∧
      ∀ d, (Source.mk path second).tokenize = .error d →
        (Source.mk path (first ++ "\n" ++ second)).tokenize =
          .error (d.moved (1 + first.toList.count '\n')) := by
  obtain ⟨position, hending, rfl⟩ := Source.tokenize_eq_ok_iff.mp h
  obtain ⟨_, last, htokens, -, hstart, -⟩ := last_token h
  obtain ⟨-, hlast⟩ := List.append_inj' htokens rfl
  obtain rfl : Token.atEnd position = last := (List.cons.inj hlast).1
  have hline := Scan.ofChars_line hending second.toList
  have htext : (first ++ "\n" ++ second).toList = first.toList ++ '\n' :: second.toList := by
    rw [String.toList_append, String.toList_append, List.append_assoc]
    rfl
  rw [← htext] at hline
  obtain ⟨(hjoined : (Source.mk path (first ++ "\n" ++ second)).scan.tokens = _),
    (hjoinedEnding : (Source.mk path (first ++ "\n" ++ second)).scan.ending = _)⟩ := hline
  have hok (later : List Token) (hlater : (Source.mk path second).tokenize = .ok later) :
      (Source.mk path (first ++ "\n" ++ second)).tokenize =
        .ok ((Source.mk path first).scan.tokens ++ .lineFeed position :: later.map
          (Token.moved (1 + first.toList.count '\n') (Text.extent first.toList + 1))) := by
    obtain ⟨stop, hstop, rfl⟩ := Source.tokenize_eq_ok_iff.mp hlater
    refine Source.tokenize_eq_ok_iff.mpr ⟨_, hjoinedEnding.trans (congrArg _ hstop), ?_⟩
    rw [hjoined, List.map_append, ← List.cons_append, ← List.append_assoc]
    rfl
  have herror (d : Diagnostic) (hd : (Source.mk path second).tokenize = .error d) :
      (Source.mk path (first ++ "\n" ++ second)).tokenize =
        .error (d.moved (1 + first.toList.count '\n')) := by
    obtain ⟨error, hfault, rfl⟩ := Source.tokenize_eq_error_iff.mp hd
    exact Source.tokenize_eq_error_iff.mpr ⟨_, hjoinedEnding.trans (congrArg _ hfault), rfl⟩
  refine ⟨_, _, rfl, rfl, ?_, ⟨?_, fun ⟨later, hlater⟩ => ⟨_, hok later hlater⟩⟩, hok, herror⟩
  · rw [hstart, offset_reached]
  · rintro ⟨joined, htokenized⟩
    cases hsecond : (Source.mk path second).tokenize with
    | ok later => exact ⟨later, rfl⟩
    | error d =>
        rw [herror d hsecond] at htokenized
        cases htokenized

/-- A comment over two lines and free text with a character of two units, before a line with a
lexical error and before one without. -/
theorem tokenize_line_local_commented :
    (Source.mk "doc.lol" "#OBTW\n#TLDR 😀 ").tokenize =
        .ok [⟨.text "😀", ⟨2, 7, 12⟩, ⟨2, 9, 15⟩⟩, ⟨.eof, ⟨2, 9, 15⟩, ⟨2, 9, 15⟩⟩] ∧
      (Source.mk "doc.lol" ("#OBTW\n#TLDR 😀 " ++ "\n" ++ " x")).tokenize =
        .ok [⟨.text "😀", ⟨2, 7, 12⟩, ⟨2, 9, 15⟩⟩, ⟨.newline, ⟨2, 9, 15⟩, ⟨3, 1, 16⟩⟩,
          ⟨.name "x", ⟨3, 2, 17⟩, ⟨3, 3, 18⟩⟩, ⟨.eof, ⟨3, 3, 18⟩, ⟨3, 3, 18⟩⟩] ∧
      (Source.mk "doc.lol" ("#OBTW\n#TLDR 😀 " ++ "\n" ++ " #it is")).tokenize =
        .error ⟨.unknownHashWord, .error, "Unrecognized hashtag word '#IT'", "doc.lol", some 3,
          some 2⟩ := by
  have hfirst : (Source.mk "doc.lol" "#OBTW\n#TLDR 😀 ").tokenize =
      .ok [⟨.text "😀", ⟨2, 7, 12⟩, ⟨2, 9, 15⟩⟩, ⟨.eof, ⟨2, 9, 15⟩, ⟨2, 9, 15⟩⟩] := by rfl
  have hname : (Source.mk "doc.lol" " x").tokenize =
      .ok [⟨.name "x", ⟨1, 2, 1⟩, ⟨1, 3, 2⟩⟩, ⟨.eof, ⟨1, 3, 2⟩, ⟨1, 3, 2⟩⟩] := by rfl
  have hword : (Source.mk "doc.lol" " #it is").tokenize =
      .error ⟨.unknownHashWord, .error, "Unrecognized hashtag word '#IT'", "doc.lol", some 1,
        some 2⟩ := by rfl
  obtain ⟨earlier, last, htokens, -, -, -, hok, -⟩ := tokenize_line_local hfirst " x"
  obtain ⟨-, -, -, -, -, -, -, herror⟩ := tokenize_line_local hfirst " #it is"
  have hsplit : [_] ++ [_] = earlier ++ [last] := htokens
  obtain ⟨rfl, hlast⟩ := List.append_inj' hsplit rfl
  obtain rfl := (List.cons.inj hlast).1
  exact ⟨hfirst, hok _ hname, herror _ hword⟩

end LolMarkup
