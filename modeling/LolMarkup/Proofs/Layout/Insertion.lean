import LolMarkup.Proofs.Layout.Content
import LolMarkup.Proofs.Lexing.Blanks

/-!
# Spaces and comments between tokens

Spaces and tabs, or a comment, may be inserted where a token starts or ends. A comment starts with a
`#`, at which every segment before it ends as it did, and is a gap of its own. Spaces and tabs may
become part of the segment before them, if it is a gap or free text; in free text they are trimmed
(`Segmentation.content_spaced`). In either way the text says the same (`insertion_agrees`).
-/

namespace LolMarkup

open Lexing

/-- A text with characters inserted at an offset. -/
def Text.inserted (offset : Int) (new : List Char) (text : String) : String :=
  String.ofList (slice 0 offset text.toList ++
    (new ++ slice offset (extent text.toList) text.toList))

namespace Lexing

/-- The characters are a run of spaces and tabs. -/
def IsSpacing (chars : List Char) : Prop :=
  ∀ c ∈ chars, Segment.isSeparator c = true

/-- The characters are a comment with spaces around its two words. It may hold anything, but no `#`
whose letters spell the closing word. -/
def IsRemark (chars : List Char) : Prop :=
  ∃ inner, chars = "#OBTW ".toList ++ inner ++ " #TLDR ".toList ∧
    ∀ front back, inner ++ [' '] = front ++ '#' :: back →
      Segment.upper (back.takeWhile Char.isAlpha) ≠ "TLDR"

end Lexing

namespace Segment

/-- A comment that is open up to a closing word with a space after it ends there. -/
theorem comment_of_open {inner : List Char}
    (hinner : ∀ front back, inner ++ [' '] = front ++ '#' :: back →
      upper (back.takeWhile Char.isAlpha) ≠ "TLDR") (rest : List Char) :
    comment (' ' :: (inner ++ " #TLDR".toList ++ ' ' :: rest)) =
      some (' ' :: (inner ++ " #TLDR".toList)) := by
  have hclosing : comment ("#TLDR ".toList ++ rest) = some "#TLDR".toList := rfl
  have hopen : ∀ front back, ' ' :: inner ++ [' '] = front ++ '#' :: back →
      upper ((back ++ ("#TLDR ".toList ++ rest)).takeWhile Char.isAlpha) ≠ "TLDR" := by
    intro front back hsplit
    have hstops : Stops Char.isAlpha ("#TLDR ".toList ++ rest) := stops_cons (by decide) _
    rw [takeWhile_append_stops back hstops]
    cases front with
    | nil => cases hsplit
    | cons d front => exact hinner front back (List.cons.inj hsplit).2
  have hcomment := comment_append ("#TLDR ".toList ++ rest) hopen
  rw [hclosing] at hcomment
  simpa using hcomment

/-- A comment is a gap with its opening word. -/
theorem first_obtw {cs body : List Char} (h : comment (' ' :: cs) = some body) :
    first '#' ("OBTW".toList ++ ' ' :: cs) = .ok ⟨'#' :: "OBTW".toList ++ body, none⟩ := by
  have hword : hashWord ("OBTW".toList ++ ' ' :: cs) = ("OBTW", "OBTW".toList) := rfl
  rw [first_hash, ofHash, hword]
  dsimp only
  rw [List.drop_left, h]
  rfl

end Segment

namespace Segmentation

variable {cs rest run : List Char} {front back : List Segment} {fault : Option Fault}

/-! ## Spaces and tabs -/

/-- Spaces and tabs between two segments do not change what a text says. -/
theorem content_spaced (h : ofChars cs = ⟨front ++ back, fault⟩)
    (hcs : cs = front.flatMap Segment.chars ++ rest) (hrun : IsSpacing run) :
    (ofChars (front.flatMap Segment.chars ++ (run ++ rest))).content = (ofChars cs).content := by
  induction front generalizing cs with
  | nil =>
      rw [hcs]
      exact content_separators rest hrun
  | cons segment front ih =>
      obtain ⟨c, tail, after, rfl, hchars, hfirst, hafter⟩ := uncons_ofChars h
      have hrest : after = front.flatMap Segment.chars ++ rest := by
        rw [List.flatMap_cons, hchars, List.append_assoc] at hcs
        exact List.append_cancel_left (List.cons.inj hcs).2
      have hwhole : ofChars (c :: (tail ++ after)) = cons segment (ofChars after) := by
        have hcut := ofChars_of_first hfirst hchars
        rwa [hchars, List.cons_append] at hcut
      rw [hwhole, List.flatMap_cons, List.append_assoc]
      cases front with
      | nil =>
          obtain rfl : after = rest := hrest
          exact content_idle_segment hfirst hchars (idle_of_separators hrun after)
      | cons next front =>
          -- the next segment starts as before
          have hedge : SameEdge after
              ((next :: front).flatMap Segment.chars ++ (run ++ rest)) := by
            obtain ⟨d, more, _, rfl, hnext, -, -⟩ := uncons_ofChars hafter
            left
            rw [List.flatMap_cons, hnext]
            rfl
          have hsame := Segment.first_swap hedge hfirst hchars
          rw [ofChars_of_first hsame hchars, content_cons, content_cons, ih hafter hrest]

/-! ## Comments -/

/-- A comment in front of a text says nothing. -/
theorem content_remark {remark : List Char} (h : IsRemark remark) (rest : List Char) :
    (ofChars (remark ++ rest)).content = (ofChars rest).content := by
  obtain ⟨inner, rfl, hinner⟩ := h
  have hcomment := Segment.first_obtw (Segment.comment_of_open hinner rest)
  generalize hbody : ' ' :: (inner ++ " #TLDR".toList) = body at hcomment
  have hfirst : Segment.first '#' (("OBTW".toList ++ body) ++ ' ' :: rest) =
      .ok ⟨'#' :: "OBTW".toList ++ body, none⟩ := by
    rw [List.append_assoc, ← hcomment, ← hbody]
    rfl
  have htext : "#OBTW ".toList ++ inner ++ " #TLDR ".toList ++ rest =
      ('#' :: "OBTW".toList ++ body) ++ ([' '] ++ rest) := by
    rw [← hbody]
    simp
  have hspace : ∀ c ∈ [' '], Segment.isSeparator c = true := by
    intro c hc
    rw [List.mem_singleton.mp hc]
    rfl
  calc (ofChars ("#OBTW ".toList ++ inner ++ " #TLDR ".toList ++ rest)).content
      = (ofChars ([' '] ++ rest)).content := by
        rw [htext]
        exact (congrArg content (ofChars_of_first hfirst rfl)).trans (content_cons_gap _ _)
    _ = (ofChars rest).content := content_separators rest hspace

/-- Spaces, tabs or a comment between two segments do not change what a text says. -/
theorem content_insert {inserted : List Char} (h : ofChars cs = ⟨front ++ back, fault⟩)
    (hcs : cs = front.flatMap Segment.chars ++ rest)
    (hinserted : IsSpacing inserted ∨ IsRemark inserted) :
    (ofChars (front.flatMap Segment.chars ++ (inserted ++ rest))).content =
      (ofChars cs).content := by
  rcases hinserted with hspacing | hremark
  · exact content_spaced h hcs hspacing
  · obtain ⟨rest', hcs', hrest⟩ := flatMap_chars_ofChars h
    obtain rfl : rest = rest' := List.append_cancel_left (hcs.symm.trans hcs')
    have hends : EndsRuns (inserted ++ rest) := by
      obtain ⟨inner, rfl, -⟩ := hremark
      exact endsRuns_hash _
    rw [ofChars_resume h hends, content_prepend, content_remark hremark, hrest, h]
    unfold content lexemes
    rw [List.filterMap_append]

end Segmentation

/-! ## The start and the end of a token -/

/-- A token of the stream starts and ends where some of the segments end. -/
theorem Scan.exists_boundary {position place : Position} {segments : List Segment}
    {fault : Option Fault} {token : Token}
    (hmem : token ∈ (ofSegmentation position ⟨segments, fault⟩).stream)
    (hplace : place = token.start ∨ place = token.stop) :
    ∃ front back, segments = front ++ back ∧ place = endPosition position front := by
  induction segments generalizing position with
  | nil =>
      cases fault with
      | none =>
          have htoken : token = .atEnd position := List.mem_singleton.mp hmem
          refine ⟨[], [], rfl, ?_⟩
          rcases hplace with hplace | hplace
          · rw [hplace, htoken]
            rfl
          · rw [hplace, htoken]
            rfl
      | some fault => cases hmem
  | cons segment segments ih =>
      rw [show (⟨segment :: segments, fault⟩ : Segmentation) = .cons segment ⟨segments, fault⟩
        from rfl, stream_cons] at hmem
      rcases List.mem_append.mp hmem with hmem | hmem
      · cases hlexeme : segment.lexeme with
        | none =>
            rw [hlexeme] at hmem
            cases hmem
        | some lexeme =>
            rw [hlexeme] at hmem
            have htoken := List.mem_singleton.mp hmem
            rcases hplace with hplace | hplace
            · refine ⟨[], segment :: segments, rfl, ?_⟩
              rw [hplace, htoken]
              rfl
            · refine ⟨[segment], segments, rfl, ?_⟩
              rw [hplace, htoken]
              rfl
      · obtain ⟨front, back, rfl, hfront⟩ := ih hmem
        exact ⟨segment :: front, back, rfl, hfront⟩

/-- The stream of a source that can be cut into tokens is made of these tokens. -/
theorem Source.stream_of_tokenize {source : Source} {tokens : List Token}
    (h : source.tokenize = .ok tokens) : source.scan.stream = tokens := by
  obtain ⟨position, hending, rfl⟩ := tokenize_eq_ok_iff.mp h
  rw [Scan.stream, hending]
  rfl

/-- A source with the lexemes of one that can be cut into tokens can be cut too. -/
theorem Source.tokenize_of_bareLexemes {source edited : Source} {tokens : List Token}
    (htokens : source.tokenize = .ok tokens) (h : edited.bareLexemes = source.bareLexemes) :
    ∃ others, edited.tokenize = .ok others ∧
      others.map Token.lexeme = tokens.map Token.lexeme := by
  unfold bareLexemes at h
  rw [htokens] at h
  cases hedited : edited.tokenize with
  | error d =>
      rw [hedited] at h
      cases h
  | ok others =>
      rw [hedited] at h
      exact ⟨others, rfl, Except.ok.inj h⟩

/-- Spaces and tabs, or a comment, inserted where a token starts or ends change no lexeme, and the
document, the page and the messages are the same. -/
theorem insertion_agrees {source : Source} {tokens : List Token}
    (htokens : source.tokenize = .ok tokens) {token : Token} (hmem : token ∈ tokens) {offset : Int}
    (hoffset : offset = token.start.offset ∨ offset = token.stop.offset) {inserted : List Char}
    (hinserted : IsSpacing inserted ∨ IsRemark inserted) :
    let edited : Source := ⟨source.path, Text.inserted offset inserted source.text⟩
    (∃ others, edited.tokenize = .ok others ∧
      others.map Token.lexeme = tokens.map Token.lexeme) ∧ source.Agrees edited := by
  intro edited
  rw [← Source.stream_of_tokenize htokens] at hmem
  obtain ⟨place, hplace, rfl⟩ :
      ∃ place, (place = token.start ∨ place = token.stop) ∧ offset = place.offset := by
    rcases hoffset with hoffset | hoffset
    · exact ⟨token.start, .inl rfl, hoffset⟩
    · exact ⟨token.stop, .inr rfl, hoffset⟩
  -- the place parts the text into what some segments cover and a rest
  obtain ⟨front, back, hsegments, hreached⟩ := Scan.exists_boundary hmem hplace
  have hcut : Segmentation.ofChars source.text.toList =
      ⟨front ++ back, (Segmentation.ofChars source.text.toList).fault⟩ := by
    exact congrArg (Segmentation.mk · _) hsegments
  obtain ⟨rest, htext, -⟩ := Segmentation.flatMap_chars_ofChars hcut
  have hextent : place.offset = Text.extent (front.flatMap Segment.chars) := by
    rw [hreached, Scan.endPosition_eq]
    exact offset_reached _
  have hfront : Text.slice 0 place.offset source.text.toList = front.flatMap Segment.chars :=
    Text.slice_eq [] _ rest htext rfl hextent
  have hedited : edited.text.toList = front.flatMap Segment.chars ++ (inserted ++ rest) := by
    show (Text.inserted place.offset inserted source.text).toList = _
    unfold Text.inserted
    rw [String.toList_ofList, Text.slice_rest _ rest htext hextent, hfront]
  have hcontent := Segmentation.content_insert hcut htext hinserted
  rw [← hedited] at hcontent
  obtain ⟨hlexemes, hfault⟩ := Prod.mk.inj hcontent
  refine ⟨?_, Source.agrees_of_lexemes (congrArg Lexeme.collapsed hlexemes.symm) hfault.symm⟩
  have hbare : edited.bareLexemes = source.bareLexemes := by
    rw [Source.bareLexemes_eq, Source.bareLexemes_eq, hlexemes, hfault]
  exact Source.tokenize_of_bareLexemes htokens hbare

/-- A comment that holds a `#` with more letters than the closing word may stand after free text. -/
theorem insertion_agrees_after_text :
    (∃ tokens others, (Source.mk "doc.lol" "#HAI\n! #KTHXBYE").tokenize = .ok tokens ∧
      (Source.mk "doc.lol" "#HAI\n! #OBTW #tldrs #TLDR #KTHXBYE").tokenize = .ok others ∧
      others.map Token.lexeme = tokens.map Token.lexeme) ∧
    Source.Agrees ⟨"doc.lol", "#HAI\n! #KTHXBYE"⟩
      ⟨"doc.lol", "#HAI\n! #OBTW #tldrs #TLDR #KTHXBYE"⟩ := by
  have htokens : (Source.mk "doc.lol" "#HAI\n! #KTHXBYE").tokenize =
      .ok [⟨.hashWord .hai, ⟨1, 1, 0⟩, ⟨1, 5, 4⟩⟩, ⟨.newline, ⟨1, 5, 4⟩, ⟨2, 1, 5⟩⟩,
        ⟨.text "!", ⟨2, 1, 5⟩, ⟨2, 3, 7⟩⟩, ⟨.hashWord .kthxbye, ⟨2, 3, 7⟩, ⟨2, 11, 15⟩⟩,
        ⟨.eof, ⟨2, 11, 15⟩, ⟨2, 11, 15⟩⟩] := by rfl
  have hremark : IsRemark "#OBTW #tldrs #TLDR ".toList := by
    refine ⟨"#tldrs".toList, rfl, ?_⟩
    intro front back hsplit
    have hback : '#' :: back ∈ ("#tldrs".toList ++ [' ']).tails :=
      (List.mem_tails _ _).mpr ⟨front, hsplit.symm⟩
    obtain rfl : back = "tldrs ".toList := by simpa using hback
    decide
  have hedited : Text.inserted 7 "#OBTW #tldrs #TLDR ".toList "#HAI\n! #KTHXBYE" =
      "#HAI\n! #OBTW #tldrs #TLDR #KTHXBYE" := by decide +kernel
  obtain ⟨⟨others, hothers, hlexemes⟩, hagrees⟩ :=
    insertion_agrees htokens (.tail _ (.tail _ (.head _))) (.inr rfl) (.inr hremark)
  rw [hedited] at hothers hagrees
  exact ⟨⟨_, others, htokens, hothers, hlexemes⟩, hagrees⟩

end LolMarkup
