import LolMarkup.Proofs.Layout.LineFeeds
import LolMarkup.Proofs.Outlines.UniqueReading

/-!
# Listings show their tokens

A listing can be read back up to offsets. Its lines are found again because no row holds a line feed
(`Text.LineEnding.ended_inj`). In a row the place ends at the first character that no place has,
also where it fills its column and nothing separates it from the class (`Listing.cells_inj`). What
is trimmed at the end of a row is only the padding of a class that has no value, so that the class
and the value are seen in full (`Listing.row_eq`), and the first letter tells the class
(`Lexeme.eq_of_shown`).
-/

namespace LolMarkup

open Text Lexing

/-! ## Runs of characters -/

/-- A run of a class ends where the class ends. -/
theorem Lexing.append_inj_of_stops {accept : Char → Bool} {front other after rest : List Char}
    (hfront : ∀ c ∈ front, accept c = true) (hother : ∀ c ∈ other, accept c = true)
    (hafter : Stops accept after) (hrest : Stops accept rest)
    (h : front ++ after = other ++ rest) : front = other ∧ after = rest := by
  have hsame : front = other := by
    rw [← takeWhile_run hfront hafter, h, takeWhile_run hother hrest]
  rw [hsame] at h
  exact ⟨hsame, List.append_cancel_left h⟩

namespace Text

/-! ## Lines -/

namespace LineEnding

/-- Lines one after another, each ended by this line ending. -/
def ended (ending : LineEnding) (lines : List String) : String :=
  String.join (lines.map (· ++ ending.mark))

/-- A line ending is a line feed with at most something without one before it. -/
theorem exists_mark_eq (ending : LineEnding) :
    ∃ front, OneLine front ∧ ending.mark = front ++ "\n" := by
  cases ending with
  | lf => exact ⟨"", oneLine_empty, rfl⟩
  | crlf => exact ⟨"\r", by simp [OneLine], rfl⟩

/-- Ended lines are read back, if there is no line feed in them. -/
theorem ended_inj {ending : LineEnding} {lines others : List String}
    (hlines : ∀ line ∈ lines, OneLine line) (hothers : ∀ line ∈ others, OneLine line)
    (h : ending.ended lines = ending.ended others) : lines = others := by
  obtain ⟨front, hfront, hmark⟩ := ending.exists_mark_eq
  have hended (line : String) (rest : List String) :
      (ending.ended (line :: rest)).toList =
        (line ++ front).toList ++ '\n' :: (ending.ended rest).toList := by
    simp [ended, hmark]
  have haccepted {line : String} (hline : OneLine line) :
      ∀ c ∈ (line ++ front).toList, (c != '\n') = true := by
    intro c hc
    have hnot := (oneLine_append _ _).mpr ⟨hline, hfront⟩
    exact bne_iff_ne.mpr fun hfeed => hnot (hfeed ▸ hc)
  have hstops (rest : List Char) : Stops (· != '\n') ('\n' :: rest) := by
    intro c hc
    cases hc
    rfl
  -- with a carriage return or without, a line is over at its first line feed
  induction lines generalizing others with
  | nil =>
      cases others with
      | nil => rfl
      | cons other others =>
          have hchars := congrArg String.toList h
          rw [hended] at hchars
          simp [ended] at hchars
  | cons line lines ih =>
      cases others with
      | nil =>
          have hchars := congrArg String.toList h
          rw [hended] at hchars
          simp [ended] at hchars
      | cons other others =>
          rw [List.forall_mem_cons] at hlines hothers
          have hchars := congrArg String.toList h
          rw [hended, hended] at hchars
          obtain ⟨hline, hrest⟩ := append_inj_of_stops (haccepted hlines.1)
            (haccepted hothers.1) (hstops _) (hstops _) hchars
          have hfirst : line = other :=
            String.append_left_inj front |>.mp (String.toList_injective hline)
          rw [hfirst, ih hlines.2 hothers.2 (String.toList_injective (List.cons.inj hrest).2)]

end LineEnding

end Text

/-! ## Classes and values -/

namespace Lexeme

variable {lexeme other : Lexeme}

/-- The class of a lexeme and its value say which lexeme it is. -/
theorem eq_of_listed (hkind : lexeme.kindName = other.kindName)
    (hlisted : lexeme.listed = other.listed) : lexeme = other := by
  cases lexeme <;> cases other <;> simp only [kindName, String.reduceEq] at hkind
  case hashWord.hashWord word more =>
    have hword := HashWord.ofSpelling?_spelling word
    rw [show word.spelling = more.spelling from hlisted, HashWord.ofSpelling?_spelling] at hword
    rw [Option.some.inj hword]
  case keyword.keyword word more =>
    have hword := Keyword.ofSpelling?_spelling word
    rw [show word.spelling = more.spelling from hlisted, Keyword.ofSpelling?_spelling] at hword
    rw [Option.some.inj hword]
  case text.text content more =>
    have hquoted := congrArg (·.toList ++ []) hlisted
    rw [(quoted_append_inj hquoted).1]
  case name.name identifier more => rw [show identifier = more from hlisted]
  case newline.newline => rfl
  case eof.eof => rfl

/-- A lexeme is its class with the text that it carries. -/
theorem eq_of_content? (hkind : lexeme.kindName = other.kindName)
    (hcontent : lexeme.content? = other.content?) : lexeme = other := by
  apply eq_of_listed hkind
  cases lexeme <;> cases other <;> simp_all [kindName, content?, listed]

/-- The value of a lexeme does not end with a blank character. -/
theorem isBlank_getLast_listed (h : lexeme.Writable) {c : Char}
    (hc : lexeme.listed.toList.getLast? = some c) : isBlank c = false := by
  have hpiece {s : String} (hs : IsPiece s) (hc : s.toList.getLast? = some c) :
      isBlank c = false := by
    rw [← hs.trim] at hc
    exact getLast?_trim hc
  cases lexeme with
  | hashWord word => cases word <;> cases hc <;> rfl
  | keyword word => exact hpiece (isPiece_spelling word) hc
  | text content =>
      rw [listed, toList_quoted, ← List.cons_append, List.getLast?_concat] at hc
      cases hc
      rfl
  | name identifier => exact hpiece (IsName.isPiece h) hc
  | newline | eof => cases hc

/-- What a row shows of a lexeme: its class, with the value in the next column if there is one. -/
def shown (lexeme : Lexeme) : String :=
  if lexeme.listed = "" then lexeme.kindName
  else Listing.column 10 lexeme.kindName ++ lexeme.listed

/-- What is shown of a lexeme starts with the first letter of its class. -/
theorem exists_shown_eq (lexeme : Lexeme) :
    ∃ c rest, lexeme.shown.toList = c :: rest ∧ lexeme.kindName.toList.head? = some c ∧
      c.isAlpha = true := by
  have hkind : ∃ c rest, lexeme.kindName.toList = c :: rest ∧ c.isAlpha = true := by
    cases lexeme <;> simp [kindName]
  obtain ⟨c, rest, hrest, hletter⟩ := hkind
  have hhead : lexeme.kindName.toList.head? = some c := by
    rw [hrest]
    rfl
  unfold shown
  split
  · exact ⟨c, rest, hrest, hhead, hletter⟩
  · rw [Listing.column, String.append_assoc, String.toList_append, hrest, List.cons_append]
    exact ⟨c, _, rfl, rfl, hletter⟩

/-- No two classes start with the same letter. -/
theorem kindName_eq_of_head? (h : lexeme.kindName.toList.head? = other.kindName.toList.head?) :
    lexeme.kindName = other.kindName := by
  cases lexeme <;> cases other <;> simp_all [kindName]

/-- What is shown of a lexeme says which lexeme it is. -/
theorem eq_of_shown (h : lexeme.shown = other.shown) : lexeme = other := by
  have hkind : lexeme.kindName = other.kindName := by
    obtain ⟨c, _, hshown, hc, -⟩ := lexeme.exists_shown_eq
    obtain ⟨d, _, hother, hd, -⟩ := other.exists_shown_eq
    rw [h, hother] at hshown
    apply kindName_eq_of_head?
    rw [hc, hd, (List.cons.inj hshown).1]
  -- of the same class, one with a value shows more than one without
  have hlonger {value : String} (hvalue : value ≠ "") :
      Listing.column 10 other.kindName ++ value ≠ other.kindName := by
    intro hsame
    rw [Listing.column, String.append_assoc] at hsame
    have hrest := String.append_eq_left_iff.mp hsame
    exact hvalue (String.append_eq_empty_iff.mp hrest).2
  refine eq_of_listed hkind ?_
  unfold shown at h
  rw [hkind] at h
  split at h <;> split at h
  next hempty hnone => rw [hempty, hnone]
  next hvalue => exact absurd h.symm (hlonger hvalue)
  next hvalue _ => exact absurd h (hlonger hvalue)
  next => exact String.append_right_inj _ |>.mp h

end Lexeme

/-! ## Rows -/

namespace Listing

/-- The characters of places. -/
def isPlace (c : Char) : Bool :=
  isNumeric c || c = ':'

/-- The place that a row shows. -/
def place (position : Position) : String :=
  toString position.line ++ ":" ++ toString position.column

/-- A place is written in characters of places. -/
theorem isPlace_of_mem_place {position : Position} {c : Char}
    (h : c ∈ (place position).toList) : isPlace c = true := by
  rw [place, String.toList_append, String.toList_append, List.mem_append, List.mem_append] at h
  rcases h with (h | h) | h
  · rw [isPlace, isNumeric_of_mem_toString h, Bool.true_or]
  · rw [List.mem_singleton.mp h]
    rfl
  · rw [isPlace, isNumeric_of_mem_toString h, Bool.true_or]

/-- A place shows its line and its column. -/
theorem place_inj {position other : Position} (h : place position = place other) :
    position.line = other.line ∧ position.column = other.column := by
  have hchars := congrArg String.toList h
  simp only [place, String.append_assoc, String.toList_append] at hchars
  have hstops (rest : List Char) : Stops isNumeric (":".toList ++ rest) := by
    intro c hc
    cases hc
    rfl
  obtain ⟨hline, hrest⟩ := append_inj_of_stops (fun c => isNumeric_of_mem_toString)
    (fun c => isNumeric_of_mem_toString) (hstops _) (hstops _) hchars
  have hcolumn := List.append_cancel_left hrest
  exact ⟨Int.repr_injective (String.toList_injective hline),
    Int.repr_injective (String.toList_injective hcolumn)⟩

/-- No letter belongs to a place. -/
theorem isPlace_of_isAlpha {c : Char} (h : c.isAlpha = true) : isPlace c = false := by
  have hdigit : c.isDigit = false := by
    simp only [Char.isAlpha, Char.isUpper, Char.isLower, Char.isDigit, Bool.or_eq_true,
      Bool.and_eq_true, Bool.and_eq_false_iff, decide_eq_true_eq, decide_eq_false_iff_not,
      ge_iff_le, UInt32.le_iff_toNat_le] at h ⊢
    right
    rcases h with ⟨h, -⟩ | ⟨h, -⟩ <;> exact Nat.not_le.mpr (Nat.lt_of_lt_of_le (by decide) h)
  have hother {d : Char} (hd : d.isAlpha = false) : c ≠ d := by
    rintro rfl
    rw [h] at hd
    cases hd
  simp [isPlace, isNumeric, hdigit, hother (d := '-') rfl, hother (d := ':') rfl]

/-- A row shows the place of its token in a column and what there is to show of its lexeme. -/
theorem row_eq {token : Token} (h : token.lexeme.Writable ∨ token.lexeme = .eof) :
    row token = column 8 (place token.start) ++ token.lexeme.shown := by
  have htrim {front back : String} (hne : back ≠ "")
      (hlast : ∀ c, back.toList.getLast? = some c → isBlank c = false) :
      String.ofList (trimEnd (front ++ back).toList) = front ++ back := by
    rw [trimEnd_eq_self, String.ofList_toList]
    intro c hc
    rw [String.toList_append, List.getLast?_append_of_ne_nil _ (by simpa using hne)] at hc
    exact hlast c hc
  show String.ofList (trimEnd (column 8 (place token.start) ++ column 10 token.lexeme.kindName ++
    token.lexeme.listed).toList) = _
  unfold Lexeme.shown
  split
  next hempty =>
      -- only the padding of the class is trimmed
      rw [hempty, String.append_empty, column.eq_def 10, ← String.append_assoc,
        String.toList_append, trimEnd_append_blank]
      · refine htrim ?_ ?_ <;> cases token.lexeme <;> simp [Lexeme.kindName] <;> decide
      · intro c hc
        rw [String.toList_ofList, List.mem_replicate] at hc
        rw [hc.2]
        rfl
  next hvalue =>
      rw [htrim hvalue, String.append_assoc]
      rcases h with h | h
      · exact fun c => Lexeme.isBlank_getLast_listed h
      · exact absurd (by rw [h]; rfl) hvalue

/-- The cells of a row are read back. -/
theorem cells_inj {position other : Position} {lexeme more : Lexeme}
    (h : column 8 (place position) ++ lexeme.shown = column 8 (place other) ++ more.shown) :
    position.line = other.line ∧ position.column = other.column ∧ lexeme = more := by
  have hchars := congrArg String.toList h
  simp only [column, String.append_assoc, String.toList_append, String.toList_ofList] at hchars
  have hstops (n : Nat) (lexeme : Lexeme) :
      Stops isPlace (List.replicate n ' ' ++ lexeme.shown.toList) := by
    intro c hc
    cases n with
    | zero =>
        -- a place that fills its column is followed by the class at once
        obtain ⟨d, rest, hshown, -, hletter⟩ := lexeme.exists_shown_eq
        rw [hshown] at hc
        cases hc
        exact isPlace_of_isAlpha hletter
    | succ n =>
        cases hc
        rfl
  obtain ⟨hplace, hrest⟩ := append_inj_of_stops (fun c => isPlace_of_mem_place)
    (fun c => isPlace_of_mem_place) (hstops _ _) (hstops _ _) hchars
  rw [String.toList_injective hplace] at hrest
  have hshown := String.toList_injective (List.append_cancel_left hrest)
  obtain ⟨hline, hcolumn⟩ := place_inj (String.toList_injective hplace)
  exact ⟨hline, hcolumn, Lexeme.eq_of_shown hshown⟩

/-- A listing is made of its rows, each ended by the line ending. -/
theorem text_eq_ended (ending : LineEnding) (tokens : List Token) :
    text ending tokens = ending.ended (rows tokens) := rfl

end Listing

/-! ## Listings -/

/-- Two tokens stand at the same line and column, and are of the same class and text. -/
structure Token.ShownAlike (token other : Token) : Prop where
  line : token.start.line = other.start.line
  column : token.start.column = other.start.column
  kind : token.lexeme.kindName = other.lexeme.kindName
  content : token.lexeme.content? = other.lexeme.content?

/-- Tokens have the same row exactly if they are shown alike. -/
theorem Listing.row_eq_iff {token other : Token}
    (h : token.lexeme.Writable ∨ token.lexeme = .eof)
    (hother : other.lexeme.Writable ∨ other.lexeme = .eof) :
    row token = row other ↔ token.ShownAlike other := by
  constructor
  · intro hrow
    rw [row_eq h, row_eq hother] at hrow
    obtain ⟨hline, hcolumn, hlexeme⟩ := cells_inj hrow
    exact ⟨hline, hcolumn, by rw [hlexeme], by rw [hlexeme]⟩
  · intro halike
    unfold row
    rw [halike.line, halike.column, Lexeme.eq_of_content? halike.kind halike.content]

/-- Tokens have the same rows exactly if they are as many and shown alike in order. -/
theorem Listing.map_row_eq_iff {tokens others : List Token}
    (h : ∀ token ∈ tokens, token.lexeme.Writable ∨ token.lexeme = .eof)
    (hothers : ∀ token ∈ others, token.lexeme.Writable ∨ token.lexeme = .eof) :
    tokens.map row = others.map row ↔ List.Forall₂ Token.ShownAlike tokens others := by
  induction tokens generalizing others with
  | nil => simp [eq_comm]
  | cons token tokens ih =>
      cases others with
      | nil => simp
      | cons other others =>
          rw [List.forall_mem_cons] at h hothers
          rw [List.map_cons, List.map_cons, List.cons.injEq, List.forall₂_cons,
            row_eq_iff h.1 hothers.1, ih h.2 hothers.2]

/-- Two listings with the same line ending are the same exactly if they list as many tokens, and
tokens of the same line, column, class and text in the same order. A listing has one line more than
there are tokens; all of them end with the line ending and hold no other line feed or carriage
return. -/
theorem listing_lossless (ending : LineEnding) {source other : Source} {tokens others : List Token}
    (h : source.tokenize = .ok tokens) (hother : other.tokenize = .ok others) :
    (Listing.text ending tokens = Listing.text ending others ↔
      List.Forall₂ Token.ShownAlike tokens others) ∧
    ∃ lines : List String, lines.length = tokens.length + 1 ∧
      Listing.text ending tokens = ending.ended lines ∧
      ∀ line ∈ lines, '\n' ∉ line.toList ∧ '\r' ∉ line.toList := by
  have hrows := Listing.printable_rows (Source.printable_listed h)
  have hothers := Listing.printable_rows (Source.printable_listed hother)
  have hiff := Listing.map_row_eq_iff (Source.writable_of_tokenize h)
    (Source.writable_of_tokenize hother)
  refine ⟨?_, Listing.rows tokens, ?_, rfl, ?_⟩
  · rw [← hiff, Listing.text_eq_ended, Listing.text_eq_ended]
    constructor
    · intro htext
      have hsame := LineEnding.ended_inj (fun row hrow => (hrows row hrow).oneLine)
        (fun row hrow => (hothers row hrow).oneLine) htext
      exact (List.cons.inj hsame).2
    · intro hsame
      have hlength := congrArg List.length hsame
      rw [List.length_map, List.length_map] at hlength
      rw [Listing.rows, Listing.rows, hsame, hlength]
  · rw [Listing.rows, List.length_cons, List.length_map]
  · exact fun line hline => ⟨(hrows line hline).notMem (by decide),
      (hrows line hline).notMem (by decide)⟩

/-- The tokens of two words after a comment that takes up the given number of units more than it
has characters. -/
def Listing.afterComment (more : Int) : List Token :=
  [⟨.name "so", ⟨1, 15, 14 + more⟩, ⟨1, 17, 16 + more⟩⟩,
    ⟨.text ", now", ⟨1, 17, 16 + more⟩, ⟨1, 22, 21 + more⟩⟩, .atEnd ⟨1, 22, 21 + more⟩]

/-- A character of two units in a comment moves the offsets after it and nothing that is listed. -/
theorem listing_lossless_commented :
    (⟨"a", "#OBTW x #TLDR so, now"⟩ : Source).tokenize = .ok (Listing.afterComment 0) ∧
    (⟨"b", "#OBTW 😀 #TLDR so, now"⟩ : Source).tokenize = .ok (Listing.afterComment 1) ∧
    List.Forall₂ Token.ShownAlike (Listing.afterComment 0) (Listing.afterComment 1) ∧
    Listing.afterComment 0 ≠ Listing.afterComment 1 ∧
    Listing.text .crlf (Listing.afterComment 0) = Listing.text .crlf (Listing.afterComment 1) := by
  have hfirst : (⟨"a", "#OBTW x #TLDR so, now"⟩ : Source).tokenize =
      .ok (Listing.afterComment 0) := by
    cbv
  have hsecond : (⟨"b", "#OBTW 😀 #TLDR so, now"⟩ : Source).tokenize =
      .ok (Listing.afterComment 1) := by
    cbv
  have halike : List.Forall₂ Token.ShownAlike (Listing.afterComment 0) (Listing.afterComment 1) :=
    .cons ⟨rfl, rfl, rfl, rfl⟩ (.cons ⟨rfl, rfl, rfl, rfl⟩ (.cons ⟨rfl, rfl, rfl, rfl⟩ .nil))
  exact ⟨hfirst, hsecond, halike, by decide,
    (listing_lossless .crlf hfirst hsecond).1.mpr halike⟩

end LolMarkup
